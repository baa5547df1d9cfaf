import Tidehunter.Iterators.DbIterator

/-!
# What an iterator yields

From its place an iterator yields the records ahead that lie in its bounds, in order and each
once. It may stop at the first record out of its end bound because the records follow the order
of the index keys.
-/

namespace Tidehunter.Iterators

open Library Wal Index KeyShape LargeTable Db

namespace IterationSource

variable {blooms : BloomFilter Bytes} (source : IterationSource blooms)

/-- The live record behind an index key. -/
def records (key : Bytes) : Option (Bytes × Bytes) :=
  (source.table.stored source.lastProcessed key).bind (source.record key)

/-- The record an iterator finds behind an index key. -/
def seen (key : Bytes) : Option (Bytes × Bytes) :=
  (source.table.view source.lastProcessed key).bind (source.record key)

/-- A source at rest: index entries point at records of their key, which passed the check of
its size, and no record is at the sentinel offset. -/
structure Ok : Prop where
  table : source.table.Ok
  verified : ∀ key : Bytes, source.keyIndexing.indexKeySize = some key.length →
    source.table.shape.cellId key ≠ none
  unreadable : ∀ key position, position.offset = u64Max → source.record key position = none
  reduces : ∀ key record, source.records key = some record →
    source.reduceKey record.1 = some key
  sized : ∀ key record, source.records key = some record →
    source.keyIndexing.checkKeySize record.1.length = true

/-- A source an iterator can walk: what it finds behind an index key is a record of that key. -/
structure Walks : Prop where
  table : source.table.Ok
  reduces : ∀ key record, source.seen key = some record → source.reduceKey record.1 = some key

/-- The records follow the order of the index keys. -/
structure Orderly : Prop where
  follows : ∀ key other first second, source.seen key = some first →
    source.seen other = some second → key < other → first.1 < second.1
  same : source.keyIndexing.needCheckIndexKey = false → ∀ key record,
    source.seen key = some record → record.1 = key

variable {source} {cell : CellId} {prev : Option Bytes} {direction : Direction}
  {endCellExclusive : Option CellId}

/-- An index entry without a record is passed over. -/
theorem nextIn_of_unreadable {key : Bytes} {position : WalPosition} {found : CellId}
    {result : Option (Bytes × Bytes × Bytes)}
    (next : NextIn direction (source.table.Ahead direction endCellExclusive cell prev)
      (source.table.view source.lastProcessed) (some (key, position)))
    (unreadable : source.record key position = none)
    (ofKey : source.table.shape.cellId key = some found)
    (rest : NextIn direction (source.table.Ahead direction endCellExclusive found (some key))
      source.seen result) :
    NextIn direction (source.table.Ahead direction endCellExclusive cell prev) source.seen
      result := by
  obtain ⟨ahead, shown, first⟩ := next
  refine rest.widen (fun other isAhead => ((KsTable.ahead_found ahead ofKey other).mp isAhead).1)
    fun other isAhead notBehind => ?_
  rw [KsTable.ahead_found ahead ofKey] at notBehind
  rw [seen]
  rcases direction.before_or_eq_or_before key other with behind | rfl | inFront
  · exact absurd ⟨isAhead, behind⟩ notBehind
  · rw [shown, Option.bind_some, unreadable]
  · rw [first other isAhead inFront, Option.bind_none]

theorem nextEntryFrom_spec (walks : source.Walks) {fuel : Nat} (holds : source.table.Holds cell)
    (behind : ∀ key, prev = some key → source.table.shape.cellId key = some cell)
    {caches : source.Caches} (fit : source.table.FitAt cell caches)
    (enough : source.table.stepsLeft direction cell prev ≤ fuel) :
    ∃ (found : Option (CellId × Bytes × Bytes × Bytes)) (kept : source.Caches),
      source.nextEntryFrom endCellExclusive direction fuel cell prev caches =
        some (found.map fun entry => (entry.1, entry.2.2), kept) ∧
      NextIn direction (source.table.Ahead direction endCellExclusive cell prev) source.seen
        (found.map Prod.snd) ∧
      ∀ entry, found = some entry →
        source.table.shape.cellId entry.2.1 = some entry.1 ∧ source.table.FitAt entry.1 kept := by
  induction fuel generalizing cell prev caches with
  | zero =>
      unfold KsTable.stepsLeft at enough
      omega
  | succ fuel ih =>
      obtain ⟨result, kept, ran, next, located⟩ := @KsTable.nextEntry_spec _ source.table cell
        source.lastProcessed direction prev endCellExclusive walks.table holds behind caches fit
      rw [nextEntryFrom, ran]
      cases result with
      | none =>
          refine ⟨none, kept, rfl, fun key ahead => ?_, nofun⟩
          have unseen : source.table.view source.lastProcessed key = none := next key ahead
          rw [seen, unseen, Option.bind_none]
      | some entry =>
          obtain ⟨foundCell, key, position⟩ := entry
          obtain ⟨ofKey, keptFit⟩ := located _ rfl
          have shown : source.table.view source.lastProcessed key = some position := next.2.1
          cases read : source.record key position with
          | some record =>
              refine ⟨some (foundCell, key, record), kept, by simp only [read, Option.map_some],
                ⟨next.1, by rw [seen, shown, Option.bind_some, read], ?_⟩, ?_⟩
              · intro other ahead before
                have unseen : source.table.view source.lastProcessed other = none :=
                  next.2.2 other ahead before
                rw [seen, unseen, Option.bind_none]
              · intro entry same
                obtain rfl := Option.some.inj same
                exact ⟨ofKey, keptFit⟩
          | none =>
              have fewer := KsTable.stepsLeft_found walks.table next.1 shown ofKey
              obtain ⟨found, last, ranRest, rest, placed⟩ := ih (KsTable.holds_of_cellId ofKey)
                (fun other same => Option.some.inj same ▸ ofKey) keptFit
                (Nat.le_of_lt_succ (Nat.lt_of_lt_of_le fewer enough))
              refine ⟨found, last, by simp only [read, ranRest], ?_, placed⟩
              exact nextIn_of_unreadable next read ofKey rest

theorem offset_readBack_invalid (source : IterationSource blooms) :
    (source.table.format.readBack WalPosition.invalid).offset = u64Max := by
  unfold KsTable.format
  cases source.table.indexFormat with
  | header keySize => cases keySize <;> rfl
  | uniform keySize windowSize two_le => rfl

/-- Iterators find the live records. -/
theorem seen_eq_records (ok : source.Ok) : source.seen = source.records := by
  funext key
  unfold seen records
  rcases KsTable.view_eq_or ok.table source.lastProcessed key with same | ⟨misread, nothing⟩
  · rw [same]
  · rw [misread, nothing, Option.bind_some, Option.bind_none]
    exact ok.unreadable key _ (offset_readBack_invalid source)

theorem Ok.walks (ok : source.Ok) : source.Walks :=
  ⟨ok.table, seen_eq_records ok ▸ ok.reduces⟩

theorem view_of_seen {key : Bytes} {record : Bytes × Bytes} (held : source.seen key = some record) :
    ∃ position, source.table.view source.lastProcessed key = some position := by
  obtain ⟨position, shown, -⟩ := Option.bind_eq_some_iff.mp held
  exact ⟨position, shown⟩

theorem nextEntry_spec (walks : source.Walks) (holds : source.table.Holds cell)
    (behind : ∀ key, prev = some key → source.table.shape.cellId key = some cell)
    {caches : source.Caches} (fit : source.table.FitAt cell caches) :
    ∃ (found : Option (CellId × Bytes × Bytes × Bytes)) (kept : source.Caches),
      source.nextEntry endCellExclusive direction cell prev caches =
        some (found.map fun entry => (entry.1, entry.2.2), kept) ∧
      NextIn direction (source.table.Ahead direction endCellExclusive cell prev) source.seen
        (found.map Prod.snd) ∧
      ∀ entry, found = some entry →
        source.table.shape.cellId entry.2.1 = some entry.1 ∧ source.table.FitAt entry.1 kept := by
  exact nextEntryFrom_spec walks holds behind fit
    (KsTable.stepsLeft_le_steps walks.table direction cell prev)

end IterationSource

namespace DbIterator

variable {blooms : BloomFilter Bytes} {source : IterationSource blooms} {iter : DbIterator source}
  {cell : CellId}

/-- The iterator stands in a cell. -/
structure Ready (iter : DbIterator source) (cell : CellId) : Prop where
  isCell : iter.cell = some cell
  holds : source.table.Holds cell
  behind : ∀ key, iter.prevKey = some key → source.table.shape.cellId key = some cell
  fit : source.table.FitAt cell iter.iterCache

/-- The index keys ahead of an iterator that stands in a cell. -/
def Ahead (iter : DbIterator source) (cell : CellId) (key : Bytes) : Prop :=
  source.table.Ahead iter.direction iter.endCellExclusive cell iter.prevKey key

/-- The records in the bounds of the iterator, as far as it checks them. -/
def inside (iter : DbIterator source) (key : Bytes) : Option (Bytes × Bytes) :=
  (source.seen key).filter fun record => iter.checkBounds record.1 = none

/-- Without bounds nothing is compared; else the records must follow the index keys. -/
def Compares (iter : DbIterator source) : Prop :=
  iter.fullLowerBound = none ∧ iter.fullUpperBound = none ∨ source.Orderly

/-- Two iterators that differ in their place only. -/
structure SameBounds (iter other : DbIterator source) : Prop where
  lower : other.fullLowerBound = iter.fullLowerBound
  upper : other.fullUpperBound = iter.fullUpperBound
  stop : other.endCellExclusive = iter.endCellExclusive
  turned : other.reverse = iter.reverse

theorem SameBounds.checkBounds {other : DbIterator source} (same : SameBounds iter other)
    (key : Bytes) : other.checkBounds key = iter.checkBounds key := by
  unfold DbIterator.checkBounds isOutOfBound withKeyReduction
  rw [same.lower, same.upper, same.turned]

/-- A key behind one out of the end bound is out of it, too. -/
theorem isOutOfBound_of_before {first second : Bytes} (out : iter.isOutOfBound first iter.reverse)
    (before : iter.direction.Before first second) : iter.isOutOfBound second iter.reverse := by
  unfold isOutOfBound at *
  cases reversed : iter.reverse with
  | true =>
      simp only [direction, reversed, Direction.ofBool, if_true] at before out ⊢
      obtain ⟨lower, isLower, below⟩ := (Option.any_eq_true _ _).mp out
      exact (Option.any_eq_true _ _).mpr ⟨lower, isLower, decide_eq_true
        (lt_trans before (of_decide_eq_true below))⟩
  | false =>
      simp only [direction, reversed, Direction.ofBool, Bool.false_eq_true, if_false]
        at before out ⊢
      obtain ⟨upper, isUpper, above⟩ := (Option.any_eq_true _ _).mp out
      exact (Option.any_eq_true _ _).mpr ⟨upper, isUpper, decide_eq_true
        ((of_decide_eq_true above).trans (le_of_lt before))⟩

theorem checkBounds_of_isOutOfBound {key : Bytes} (out : iter.isOutOfBound key iter.reverse) :
    iter.checkBounds key = some .stop := by
  simp only [DbIterator.checkBounds, out, if_true, ite_self]

theorem isOutOfBound_of_checkBounds {key : Bytes} (stops : iter.checkBounds key = some .stop) :
    iter.isOutOfBound key iter.reverse := by
  unfold DbIterator.checkBounds at stops
  by_contra notOut
  simp only [notOut, if_false] at stops
  split at stops
  · split at stops <;> cases stops
  · cases stops

theorem checkBounds_of_no_bounds (noLower : iter.fullLowerBound = none)
    (noUpper : iter.fullUpperBound = none) (key : Bytes) : iter.checkBounds key = none := by
  simp [DbIterator.checkBounds, isOutOfBound, noLower, noUpper]

/-- Behind a record that ends the iteration none is in the bounds. -/
theorem inside_of_stop (compares : iter.Compares) {key other : Bytes} {record : Bytes × Bytes}
    (held : source.seen key = some record) (stops : iter.checkBounds record.1 = some .stop)
    (before : iter.direction.Before key other) : iter.inside other = none := by
  rcases compares with ⟨noLower, noUpper⟩ | orderly
  · rw [checkBounds_of_no_bounds noLower noUpper] at stops
    cases stops
  · rw [inside, Option.filter_eq_none_iff]
    intro found isFound
    have follows : iter.direction.Before record.1 found.1 := by
      cases turned : iter.reverse with
      | true =>
          rw [direction, turned] at before ⊢
          exact orderly.follows other key found record isFound held before
      | false =>
          rw [direction, turned] at before ⊢
          exact orderly.follows key other record found held isFound before
    have out := isOutOfBound_of_before (isOutOfBound_of_checkBounds stops) follows
    simp [checkBounds_of_isOutOfBound out]

/-- The key given last can only end the iteration, without key reduction. -/
theorem prevAction_eq_some {action : IteratorAction} (acts : iter.prevAction = some action) :
    action = .stop ∧ source.keyIndexing.needCheckIndexKey = false ∧
      ∃ prev, iter.prevKey = some prev ∧ iter.isOutOfBound prev iter.reverse := by
  unfold prevAction DbIterator.checkBounds withKeyReduction at acts
  cases isPrev : iter.prevKey with
  | none => simp [isPrev] at acts
  | some prev =>
      cases exact : source.keyIndexing.needCheckIndexKey with
      | true => simp [isPrev, exact] at acts
      | false =>
          simp only [isPrev, exact, Bool.false_eq_true, if_false] at acts
          split at acts
          · rename_i out
            exact ⟨(Option.some.inj acts).symm, rfl, prev, rfl, out⟩
          · cases acts

/-- When the last key already ended the iteration, nothing ahead is in the bounds. -/
theorem inside_of_prevAction (compares : iter.Compares) {action : IteratorAction}
    (acts : iter.prevAction = some action) (ready : iter.Ready cell) {key : Bytes}
    (ahead : iter.Ahead cell key) : iter.inside key = none := by
  obtain ⟨-, exact, prev, isPrev, out⟩ := prevAction_eq_some acts
  rcases compares with ⟨noLower, noUpper⟩ | orderly
  · simp [isOutOfBound, noLower, noUpper] at out
  · have behind : iter.direction.Before prev key := by
      obtain ⟨other, ofKey, ⟨rfl, past⟩ | ⟨further, -⟩⟩ := ahead
      · rw [isPrev] at past
        exact past
      · exact KsTable.before_of_before (ready.behind prev isPrev) ofKey further
    rw [inside, Option.filter_eq_none_iff]
    intro record held
    rw [orderly.same exact key record held]
    simp [checkBounds_of_isOutOfBound (isOutOfBound_of_before out behind)]

/-- What one step of an iterator does. -/
inductive StepGives (iter : DbIterator source) (cell : CellId) :
    Except IteratorAction (Option (Bytes × Bytes)) → DbIterator source → Prop
  | ends (after : DbIterator source)
      (nothing : ∀ key, iter.Ahead cell key → iter.inside key = none) :
      StepGives iter cell (.ok none) after
  | stops (after : DbIterator source)
      (nothing : ∀ key, iter.Ahead cell key → iter.inside key = none) :
      StepGives iter cell (.error .stop) after
  | finds {key : Bytes} {record : Bytes × Bytes} {found : CellId} {after : DbIterator source}
      (next : NextIn iter.direction (iter.Ahead cell) source.seen (some (key, record)))
      (check : iter.checkBounds record.1 = none) (ofKey : source.table.shape.cellId key = some found)
      (same : SameBounds iter after) (isPrev : after.prevKey = some key)
      (ready : after.Ready found) : StepGives iter cell (.ok (some record)) after
  | skips {key : Bytes} {record : Bytes × Bytes} {found : CellId} {after : DbIterator source}
      (next : NextIn iter.direction (iter.Ahead cell) source.seen (some (key, record)))
      (check : iter.checkBounds record.1 = some .skip)
      (ofKey : source.table.shape.cellId key = some found)
      (same : SameBounds iter after) (isPrev : after.prevKey = some key)
      (ready : after.Ready found) : StepGives iter cell (.error .skip) after

theorem tryNext_spec (walks : source.Walks) (compares : iter.Compares) (ready : iter.Ready cell) :
    ∃ outcome after, iter.tryNext = some (outcome, after) ∧ StepGives iter cell outcome after := by
  unfold tryNext
  rw [ready.isCell]
  simp only
  cases acts : iter.prevAction with
  | some action =>
      have nothing := fun key => @inside_of_prevAction _ _ iter cell compares action acts ready key
      obtain ⟨rfl, -⟩ := prevAction_eq_some acts
      exact ⟨_, _, rfl, .stops _ nothing⟩
  | none =>
      obtain ⟨found, kept, ran, next, located⟩ := @IterationSource.nextEntry_spec _ source cell
        iter.prevKey iter.direction iter.endCellExclusive walks ready.holds ready.behind iter.iterCache
        ready.fit
      rw [ran, Option.bind_some]
      cases found with
      | none =>
          refine ⟨_, _, rfl, .ends _ fun key ahead => ?_⟩
          have unread : source.seen key = none := next key ahead
          rw [inside, unread, Option.filter_none]
      | some entry =>
          obtain ⟨foundCell, key, full, value⟩ := entry
          obtain ⟨ofKey, keptFit⟩ := located _ rfl
          have held : source.seen key = some (full, value) := next.2.1
          have reduces : source.reduceKey full = some key := walks.reduces key (full, value) held
          simp only [Option.map_some, reduces]
          have placed : Ready ({ iter with
              cell := some foundCell
              prevKey := some key
              iterCache := kept } : DbIterator source) foundCell :=
            ⟨rfl, KsTable.holds_of_cellId ofKey, fun other same => Option.some.inj same ▸ ofKey,
              keptFit⟩
          cases check : iter.checkBounds full with
          | none => exact ⟨_, _, rfl, .finds next check ofKey ⟨rfl, rfl, rfl, rfl⟩ rfl placed⟩
          | some action =>
              cases action with
              | skip => exact ⟨_, _, rfl, .skips next check ofKey ⟨rfl, rfl, rfl, rfl⟩ rfl placed⟩
              | stop =>
                  refine ⟨_, _, rfl, .stops _ fun other ahead => ?_⟩
                  rcases iter.direction.before_or_eq_or_before key other with behind | rfl | inFront
                  · exact inside_of_stop compares held check behind
                  · rw [inside, held, Option.filter_some]
                    simp [check]
                  · have unread : source.seen other = none := next.2.2 other ahead inFront
                    rw [inside, unread, Option.filter_none]

/-! ## From a found record on -/

section Found

variable {key : Bytes} {record : Bytes × Bytes} {found : CellId} {after : DbIterator source}

theorem SameBounds.inside (same : SameBounds iter after) (other : Bytes) :
    after.inside other = iter.inside other := by
  unfold DbIterator.inside
  simp only [same.checkBounds]

theorem SameBounds.direction (same : SameBounds iter after) : after.direction = iter.direction := by
  rw [DbIterator.direction, DbIterator.direction, same.turned]

theorem SameBounds.compares (same : SameBounds iter after) (compares : iter.Compares) :
    after.Compares := by
  rw [Compares, same.lower, same.upper]
  exact compares

theorem SameBounds.trans {last : DbIterator source} (first : SameBounds iter after)
    (second : SameBounds after last) : SameBounds iter last :=
  ⟨second.lower.trans first.lower, second.upper.trans first.upper, second.stop.trans first.stop,
    second.turned.trans first.turned⟩

theorem ahead_after (ahead : iter.Ahead cell key)
    (ofKey : source.table.shape.cellId key = some found) (same : SameBounds iter after)
    (isPrev : after.prevKey = some key) (other : Bytes) :
    after.Ahead found other ↔ iter.Ahead cell other ∧ iter.direction.Before key other := by
  unfold Ahead at *
  rw [same.direction, same.stop, isPrev]
  exact KsTable.ahead_found ahead ofKey other

theorem stepsLeft_after (walks : source.Walks) (ahead : iter.Ahead cell key)
    (held : source.seen key = some record)
    (ofKey : source.table.shape.cellId key = some found) (same : SameBounds iter after)
    (isPrev : after.prevKey = some key) :
    source.table.stepsLeft after.direction found after.prevKey <
      source.table.stepsLeft iter.direction cell iter.prevKey := by
  obtain ⟨position, shown⟩ := IterationSource.view_of_seen held
  rw [same.direction, isPrev]
  exact KsTable.stepsLeft_found walks.table ahead shown ofKey

end Found

/-! ## Runs -/

/-- The next record in the bounds. -/
theorem nextFrom_spec (walks : source.Walks) (compares : iter.Compares) (ready : iter.Ready cell)
    {fuel : Nat} (enough : source.table.stepsLeft iter.direction cell iter.prevKey ≤ fuel) :
    ∃ (found : Option (Bytes × Bytes × Bytes)) (after : DbIterator source),
      nextFrom fuel iter = some (found.map Prod.snd, after) ∧
      NextIn iter.direction (iter.Ahead cell) iter.inside found ∧
      ∀ key record, found = some (key, record) → ∃ foundCell,
        source.table.shape.cellId key = some foundCell ∧ SameBounds iter after ∧
          after.prevKey = some key ∧ after.Ready foundCell := by
  induction fuel generalizing iter cell with
  | zero =>
      unfold KsTable.stepsLeft at enough
      omega
  | succ fuel ih =>
      obtain ⟨outcome, after, ran, gives⟩ := tryNext_spec walks compares ready
      rw [nextFrom, ran]
      cases gives with
      | ends _ nothing => exact ⟨none, after, rfl, nothing, nofun⟩
      | stops _ nothing => exact ⟨none, after, rfl, nothing, nofun⟩
      | @finds key record found _ next check ofKey same isPrev placed =>
          have held : source.seen key = some record := next.2.1
          refine ⟨some (key, record), after, rfl, ⟨next.1, ?_, fun other ahead before => ?_⟩, ?_⟩
          · rw [inside, held, Option.filter_some, if_pos (decide_eq_true check)]
          · have unread : source.seen other = none := next.2.2 other ahead before
            rw [inside, unread, Option.filter_none]
          · intro other otherRecord isFound
            cases Option.some.inj isFound
            exact ⟨found, ofKey, same, isPrev, placed⟩
      | @skips key record found _ next check ofKey same isPrev placed =>
          have held : source.seen key = some record := next.2.1
          have fewer := stepsLeft_after walks next.1 held ofKey same isPrev
          obtain ⟨result, last, ranRest, rest, located⟩ := ih (same.compares compares) placed
            (Nat.le_of_lt_succ (Nat.lt_of_lt_of_le fewer enough))
          refine ⟨result, last, ranRest, ?_, fun other otherRecord isFound => ?_⟩
          · rw [same.direction] at rest
            refine (rest.congr fun other _ => same.inside other).widen ?_ ?_
            · exact fun other isAhead =>
                ((ahead_after next.1 ofKey same isPrev other).mp isAhead).1
            · intro other isAhead notAhead
              rw [ahead_after next.1 ofKey same isPrev] at notAhead
              rcases iter.direction.before_or_eq_or_before key other with behind | rfl | inFront
              · exact absurd ⟨isAhead, behind⟩ notAhead
              · rw [inside, held, Option.filter_some]
                simp [check]
              · have unread : source.seen other = none := next.2.2 other isAhead inFront
                rw [inside, unread, Option.filter_none]
          · obtain ⟨foundCell, ofOther, sameLast, isPrevLast, placedLast⟩ :=
              located other otherRecord isFound
            exact ⟨foundCell, ofOther, same.trans sameLast, isPrevLast, placedLast⟩

theorem collectFrom_spec (walks : source.Walks) (compares : iter.Compares) (ready : iter.Ready cell)
    {fuel : Nat} (enough : source.table.stepsLeft iter.direction cell iter.prevKey ≤ fuel) :
    ∃ listed : List (Bytes × Bytes × Bytes), collectFrom fuel iter = some (listed.map Prod.snd) ∧
      Enumerates iter.direction (iter.Ahead cell) iter.inside listed := by
  induction fuel generalizing iter cell with
  | zero =>
      unfold KsTable.stepsLeft at enough
      omega
  | succ fuel ih =>
      obtain ⟨found, after, ran, next, located⟩ := nextFrom_spec walks compares ready
        (KsTable.stepsLeft_le_steps walks.table iter.direction cell iter.prevKey)
      rw [collectFrom, DbIterator.next, ran]
      cases found with
      | none => exact ⟨[], rfl, Enumerates.nil next⟩
      | some entry =>
          obtain ⟨key, record⟩ := entry
          obtain ⟨foundCell, ofKey, same, isPrev, placed⟩ := located key record rfl
          have held : source.seen key = some record := (Option.filter_eq_some_iff.mp next.2.1).1
          have fewer := stepsLeft_after walks next.1 held ofKey same isPrev
          obtain ⟨rest, ranRest, listed⟩ := ih (same.compares compares) placed
            (Nat.le_of_lt_succ (Nat.lt_of_lt_of_le fewer enough))
          refine ⟨(key, record) :: rest, by simp only [Option.map_some, ranRest, List.map_cons],
            Enumerates.cons next ?_⟩
          have sameInside : after.inside = iter.inside := funext same.inside
          rw [sameInside, same.direction] at listed
          exact listed.congr fun other _ _ => ahead_after next.1 ofKey same isPrev other

/-- An iterator yields the records ahead that lie in its bounds. -/
theorem collect_spec (walks : source.Walks) (compares : iter.Compares) (ready : iter.Ready cell) :
    ∃ listed : List (Bytes × Bytes × Bytes), iter.collect = some (listed.map Prod.snd) ∧
      Enumerates iter.direction (iter.Ahead cell) iter.inside listed :=
  collectFrom_spec walks compares ready
    (KsTable.stepsLeft_le_steps walks.table iter.direction cell iter.prevKey)

end DbIterator

end Tidehunter.Iterators
