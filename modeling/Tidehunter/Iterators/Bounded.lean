import Tidehunter.Iterators.Yields
import Tidehunter.LargeTable.Enumeration

/-!
# Bounded iteration

The calls that configure an iterator set its bounds and turn it around. Bounds that are set
after the direction was chosen put the iterator at the first record of the range and end it
behind the last one. This needs keys of one length, whose neighbours are next to each other.
-/

namespace Tidehunter.Iterators

open Library Wal Index KeyShape LargeTable Db

/-! ## Keys of one length -/

/-- The index key is the whole key or a leading part of it. -/
def Leading : KeyIndexing → Prop
  | .fixed _ => True
  | .reduction keyLength start stop => start = 0 ∧ stop ≤ keyLength
  | .variableLength => False
  | .hash => False

theorem Leading.exists_size {indexing : KeyIndexing} (leading : Leading indexing) :
    ∃ size, indexing.indexKeySize = some size ∧ ∀ hashKey key,
      indexing.checkKeySize key.length = true →
        indexing.reduceKey hashKey key = some (key.take size) ∧ (key.take size).length = size := by
  cases indexing with
  | fixed keyLength =>
      refine ⟨keyLength, rfl, fun hashKey key sized => ?_⟩
      have length : key.length = keyLength := of_decide_eq_true sized
      rw [List.take_of_length_le length.le]
      exact ⟨rfl, length⟩
  | reduction keyLength start stop =>
      obtain ⟨rfl, within⟩ := leading
      refine ⟨stop - 0, rfl, fun hashKey key sized => ?_⟩
      have length : key.length = keyLength := of_decide_eq_true sized
      rw [KeyIndexing.reduceKey, if_pos ⟨Nat.zero_le _, length ▸ within⟩]
      exact ⟨rfl, List.length_take_of_le (by omega)⟩
  | variableLength => exact leading.elim
  | hash => exact leading.elim

theorem Leading.whole {indexing : KeyIndexing} (leading : Leading indexing)
    (exact : indexing.needCheckIndexKey = false) (hashKey : Bytes → Bytes) (key : Bytes) :
    indexing.reduceKey hashKey key = some key := by
  cases indexing with
  | fixed keyLength => rfl
  | reduction keyLength start stop => cases exact
  | variableLength => exact leading.elim
  | hash => exact leading.elim

namespace IterationSource

variable {blooms : BloomFilter Bytes} {source : IterationSource blooms}

theorem orderly_of_leading (ok : source.Ok) (leading : Leading source.keyIndexing) :
    source.Orderly := by
  obtain ⟨size, -, reduces⟩ := leading.exists_size
  constructor
  · intro key other first second held otherHeld less
    rw [seen_eq_records ok] at held otherHeld
    have keyOf := ok.reduces key first held
    have otherOf := ok.reduces other second otherHeld
    rw [reduceKey, (reduces _ _ (ok.sized key first held)).1] at keyOf
    rw [reduceKey, (reduces _ _ (ok.sized other second otherHeld)).1] at otherOf
    rw [← Option.some.inj keyOf, ← Option.some.inj otherOf] at less
    exact not_le.mp fun le => less.not_ge (take_le_take size le)
  · intro exact key record held
    rw [seen_eq_records ok] at held
    have keyOf := ok.reduces key record held
    rw [reduceKey, leading.whole exact] at keyOf
    exact Option.some.inj keyOf

/-- A live record. -/
def Live (source : IterationSource blooms) (record : Bytes × Bytes) : Prop :=
  ∃ key, source.records key = some record

end IterationSource

/-! ## Configurations -/

inductive ConfigCall where
  | setLowerBound (bound : Bytes)
  | setUpperBound (bound : Bytes)
  | reverse
  deriving DecidableEq, Repr

namespace ConfigCall

/-- The lower bound after a call. -/
def lower (held : Option Bytes) : ConfigCall → Option Bytes
  | setLowerBound bound => some bound
  | setUpperBound _ => held
  | reverse => held

/-- The upper bound after a call. -/
def upper (held : Option Bytes) : ConfigCall → Option Bytes
  | setLowerBound _ => held
  | setUpperBound bound => some bound
  | reverse => held

/-- A bound as long as the keys. -/
def Fits (indexing : KeyIndexing) : ConfigCall → Prop
  | setLowerBound bound => indexing.checkKeySize bound.length = true
  | setUpperBound bound => indexing.checkKeySize bound.length = true
  | reverse => True

end ConfigCall

def lastLower (calls : List ConfigCall) : Option Bytes := calls.foldl ConfigCall.lower none

def lastUpper (calls : List ConfigCall) : Option Bytes := calls.foldl ConfigCall.upper none

namespace DbIterator

variable {blooms : BloomFilter Bytes} {source : IterationSource blooms}

/-- Make a call. None is a panic. -/
def call (iter : DbIterator source) : ConfigCall → Option (DbIterator source)
  | .setLowerBound bound => iter.setLowerBound bound
  | .setUpperBound bound => iter.setUpperBound bound
  | .reverse => iter.reversed

/-- Make calls on a new iterator. -/
def configure (source : IterationSource blooms) (calls : List ConfigCall) :
    Option (DbIterator source) :=
  calls.foldlM call (new source)

/-- An iterator that was not used yet. -/
def standing (source : IterationSource blooms) (reverse : Bool) (lower upper : Option Bytes)
    (place : CellId × Option Bytes) (stop : Option CellId) : DbIterator source :=
  ⟨some place.1, place.2, lower, upper, stop, reverse, IterCaches.clear⟩

/-- Where a forward iterator starts. -/
def lowerPlace (source : IterationSource blooms) : Option Bytes → Option (CellId × Option Bytes)
  | none => some (source.table.shape.firstCell, none)
  | some lower => (source.reduceKey lower).bind fun reduced =>
      let nextKey := saturatedDecrementVec reduced
      (source.table.shape.cellId nextKey).map fun cell =>
        (cell, if isNonzero nextKey || isNonzero reduced then some nextKey else none)

/-- Where a backward iterator starts. -/
def upperPlace (source : IterationSource blooms) : Option Bytes → Option (CellId × Option Bytes)
  | none => some (source.table.shape.lastCell, none)
  | some upper => (source.reduceKey upper).bind fun reduced =>
      let nextKey := if source.keyIndexing.needCheckIndexKey then saturatedIncrementVec reduced
        else reduced
      (source.table.shape.cellId nextKey).map fun cell =>
        (cell, if !source.keyIndexing.needCheckIndexKey || isNonmax nextKey then some nextKey
          else none)

/-- The cell a bound is in. -/
def boundCell (source : IterationSource blooms) (bound : Bytes) : Option CellId :=
  (source.reduceKey bound).bind source.table.shape.cellId

/-- The cell behind a bound; nothing without a bound. -/
def boundEnd (source : IterationSource blooms) (direction : Direction) (bound : Option Bytes) :
    Option CellId :=
  (bound.bind (boundCell source)).bind fun cell => source.table.nextCell cell direction

variable {reverse : Bool} {lower upper : Option Bytes} {place : CellId × Option Bytes}
  {stop : Option CellId} {bound : Bytes}

theorem setLowerBound_forward (supports : supportsIteratorBound source = true)
    (lower upper : Option Bytes) (place : CellId × Option Bytes) (stop : Option CellId)
    (bound : Bytes) :
    (standing source false lower upper place stop).setLowerBound bound =
      (lowerPlace source (some bound)).map fun place =>
        standing source false (some bound) upper place stop := by
  rw [setLowerBound, if_pos supports, lowerPlace]
  cases source.reduceKey bound with
  | none => rfl
  | some reduced =>
      simp only [Option.bind_some, standing, Bool.false_eq_true, if_false, Option.map_map]
      rfl

theorem setLowerBound_backward (supports : supportsIteratorBound source = true)
    (lower upper : Option Bytes) (place : CellId × Option Bytes) (stop : Option CellId)
    (bound : Bytes) :
    (standing source true lower upper place stop).setLowerBound bound =
      (boundCell source bound).map fun cell =>
        standing source true (some bound) upper
          (if upper.isNone then (source.table.shape.lastCell, none) else place)
          (source.table.nextCell cell .backward) := by
  rw [setLowerBound, if_pos supports, boundCell]
  cases source.reduceKey bound with
  | none => rfl
  | some reduced =>
      simp only [Option.bind_some, standing, if_true]
      cases source.table.shape.cellId reduced with
      | none => rfl
      | some cell => cases upper <;> rfl

theorem setUpperBound_forward (supports : supportsIteratorBound source = true)
    (lower upper : Option Bytes) (place : CellId × Option Bytes) (stop : Option CellId)
    (bound : Bytes) :
    (standing source false lower upper place stop).setUpperBound bound =
      (boundCell source bound).map fun cell =>
        standing source false lower (some bound) place (source.table.nextCell cell .forward) := by
  rw [setUpperBound, if_pos supports, boundCell]
  cases source.reduceKey bound with
  | none => rfl
  | some reduced => rfl

theorem setUpperBound_backward (supports : supportsIteratorBound source = true)
    (lower upper : Option Bytes) (place : CellId × Option Bytes) (stop : Option CellId)
    (bound : Bytes) :
    (standing source true lower upper place stop).setUpperBound bound =
      (upperPlace source (some bound)).map fun place =>
        standing source true lower (some bound) place stop := by
  rw [setUpperBound, if_pos supports, upperPlace]
  cases source.reduceKey bound with
  | none => rfl
  | some reduced =>
      simp only [Option.bind_some, standing, if_true, Option.map_map, withKeyReduction]
      rfl

/-! ## Where bounds put an iterator -/

/-- A key of the size of the index keys has a cell, and a bound is reduced to one. -/
structure Sized (source : IterationSource blooms) (size : Nat) : Prop where
  ok : source.Ok
  leading : Leading source.keyIndexing
  indexed : source.keyIndexing.indexKeySize = some size
  reduces : ∀ key : Bytes, source.keyIndexing.checkKeySize key.length = true →
    source.reduceKey key = some (key.take size) ∧ (key.take size).length = size

theorem exists_sized (ok : source.Ok) (leading : Leading source.keyIndexing) :
    ∃ size, Sized source size := by
  obtain ⟨size, indexed, reduces⟩ := leading.exists_size
  exact ⟨size, ok, leading, indexed, reduces source.hashKey⟩

variable {size : Nat} {key : Bytes} {cell : CellId}

theorem Sized.exists_cell (sized : Sized source size) (length : key.length = size) :
    ∃ cell, source.table.shape.cellId key = some cell :=
  Option.ne_none_iff_exists'.mp (sized.ok.verified key (length ▸ sized.indexed))

theorem Sized.supports (sized : Sized source size) : supportsIteratorBound source = true := by
  have leading := sized.leading
  unfold supportsIteratorBound
  cases isHash : source.keyIndexing with
  | hash =>
      rw [isHash] at leading
      exact leading.elim
  | _ => rfl

theorem Sized.of_records (sized : Sized source size) {record : Bytes × Bytes}
    (held : source.records key = some record) :
    key = record.1.take size ∧ key.length = size ∧
      ∃ cell, source.table.shape.cellId key = some cell := by
  obtain ⟨reduced, length⟩ := sized.reduces record.1 (sized.ok.sized key record held)
  have same : key = record.1.take size :=
    Option.some.inj ((sized.ok.reduces key record held).symm.trans reduced)
  exact ⟨same, same ▸ length, sized.exists_cell (same ▸ length)⟩

theorem Sized.take_eq (sized : Sized source size)
    (exact : source.keyIndexing.needCheckIndexKey = false) {full : Bytes}
    (fits : source.keyIndexing.checkKeySize full.length = true) : full.take size = full := by
  have reduced := (sized.reduces full fits).1
  rw [IterationSource.reduceKey, sized.leading.whole exact] at reduced
  exact (Option.some.inj reduced).symm

/-- A place an iterator can start at. -/
structure PlaceOk (source : IterationSource blooms) (place : CellId × Option Bytes) : Prop where
  holds : source.table.Holds place.1
  behind : ∀ key, place.2 = some key → source.table.shape.cellId key = some place.1

/-- Where a lower bound puts a forward iterator: in front of the keys from the bound on. -/
theorem lowerPlace_spec (sized : Sized source size)
    (fits : ∀ bound, lower = some bound → source.keyIndexing.checkKeySize bound.length = true) :
    ∃ place, lowerPlace source lower = some place ∧ PlaceOk source place ∧
      ∀ (key : Bytes) (cell : CellId) (stop : Option CellId), key.length = size →
        source.table.shape.cellId key = some cell →
          (source.table.Ahead .forward stop place.1 place.2 key ↔
            (∀ bound, lower = some bound → bound.take size ≤ key) ∧
              (cell = place.1 ∨ ∀ last, stop = some last → cell < last)) := by
  cases lower with
  | none =>
      refine ⟨_, rfl, ⟨KsTable.holds_startCell source.table .forward, nofun⟩,
        fun key cell stop length ofKey => ?_⟩
      rw [KsTable.ahead_none_iff ofKey]
      exact and_congr_left fun _ =>
        iff_of_true (CellShape.firstCell_le ofKey).not_gt fun _ same => nomatch same
  | some bound =>
      obtain ⟨reduced, length⟩ := sized.reduces bound (fits bound rfl)
      have onlyBound : ∀ key, (∀ other, some bound = some other → other.take size ≤ key) ↔
          bound.take size ≤ key := fun key =>
        ⟨fun all => all bound rfl, fun le other same => Option.some.inj same ▸ le⟩
      unfold lowerPlace
      simp only [reduced, Option.bind_some, onlyBound]
      generalize bound.take size = least at length
      cases step : decrement least with
      | some smaller =>
          obtain ⟨below, between⟩ := before_carry steps_decrement step
          have smallerLength := length_carry step
          obtain ⟨cell, ofSmaller⟩ := sized.exists_cell (smallerLength.trans length)
          have isSmaller : saturatedDecrementVec least = smaller := by
            rw [saturatedDecrementVec, step, Option.getD_some]
          simp only [isSmaller, ofSmaller, Option.map_some, isNonzero_of_decrement step,
            Bool.or_true, if_true]
          refine ⟨_, rfl, ⟨KsTable.holds_of_cellId ofSmaller, fun other same =>
            Option.some.inj same ▸ ofSmaller⟩, fun key place stop keyLength ofKey => ?_⟩
          rw [KsTable.ahead_some_iff ofSmaller ofKey]
          refine and_congr_left fun _ => ⟨fun above => not_lt.mp fun less => ?_, fun le => ?_⟩
          · exact between key (keyLength.trans length.symm) less above
          · exact lt_of_lt_of_le below le
      | none =>
          have isSame : saturatedDecrementVec least = least := by
            rw [saturatedDecrementVec, step, Option.getD_none]
          have zero : isNonzero least = false := (carry_eq_none_iff least).mp step
          obtain ⟨cell, ofLeast⟩ := sized.exists_cell length
          simp only [isSame, ofLeast, Option.map_some, zero, Bool.or_self, Bool.false_eq_true,
            if_false]
          refine ⟨_, rfl, ⟨KsTable.holds_of_cellId ofLeast, nofun⟩,
            fun key place stop keyLength ofKey => ?_⟩
          have le : least ≤ key := not_lt.mp
            (not_before_of_carry_eq_none steps_decrement step (keyLength.trans length.symm))
          rw [KsTable.ahead_none_iff ofKey]
          exact and_congr_left fun _ =>
            iff_of_true (CellShape.cellId_mono le ofLeast ofKey).not_gt le

/-- Where an upper bound puts a backward iterator: behind the keys below the bound, and with key
reduction behind those up to the reduced bound. -/
theorem upperPlace_spec (sized : Sized source size)
    (fits : ∀ bound, upper = some bound → source.keyIndexing.checkKeySize bound.length = true) :
    ∃ place, upperPlace source upper = some place ∧ PlaceOk source place ∧
      ∀ (key : Bytes) (cell : CellId) (stop : Option CellId), key.length = size →
        source.table.shape.cellId key = some cell →
          (source.keyIndexing.needCheckIndexKey = false →
            (source.table.Ahead .backward stop place.1 place.2 key ↔
              (∀ bound, upper = some bound → key < bound) ∧
                (cell = place.1 ∨ ∀ last, stop = some last → last < cell))) ∧
          ((∀ bound, upper = some bound → key ≤ bound.take size) →
            (cell = place.1 ∨ ∀ last, stop = some last → last < cell) →
            source.keyIndexing.needCheckIndexKey = true →
              source.table.Ahead .backward stop place.1 place.2 key) := by
  cases upper with
  | none =>
      refine ⟨_, rfl, ⟨KsTable.holds_startCell source.table .backward, nofun⟩,
        fun key cell stop length ofKey => ?_⟩
      have ahead : source.table.Ahead .backward stop source.table.shape.lastCell none key ↔
          (cell = source.table.shape.lastCell ∨ ∀ last, stop = some last → last < cell) := by
        rw [KsTable.ahead_none_iff ofKey]
        exact and_iff_right (CellShape.le_lastCell ofKey).not_gt
      refine ⟨fun _ => ?_, fun _ inFront _ => ahead.mpr inFront⟩
      rw [ahead]
      exact (and_iff_right fun _ same => nomatch same).symm
  | some bound =>
      have bounded := fits bound rfl
      obtain ⟨reduced, length⟩ := sized.reduces bound bounded
      unfold upperPlace
      simp only [reduced, Option.bind_some]
      cases exact : source.keyIndexing.needCheckIndexKey with
      | false =>
          have whole := sized.take_eq exact bounded
          rw [whole] at length
          obtain ⟨cell, ofBound⟩ := sized.exists_cell length
          simp only [whole, ofBound, Option.map_some, Bool.not_false, Bool.true_or, if_true,
            Bool.false_eq_true, if_false]
          refine ⟨_, rfl, ⟨KsTable.holds_of_cellId ofBound, fun other same =>
            Option.some.inj same ▸ ofBound⟩, fun key place stop keyLength ofKey =>
              ⟨fun _ => ?_, fun _ _ => nofun⟩⟩
          rw [KsTable.ahead_some_iff ofBound ofKey]
          exact and_congr_left fun _ =>
            ⟨fun less other same => Option.some.inj same ▸ less, fun all => all bound rfl⟩
      | true =>
          generalize isGreatest : bound.take size = greatest at length
          obtain ⟨cell, ofNext⟩ :=
            sized.exists_cell ((length_saturatedIncrementVec greatest).trans length)
          simp only [ofNext, Option.map_some, Bool.not_true, Bool.false_or, if_true]
          refine ⟨_, rfl, ⟨KsTable.holds_of_cellId ofNext, fun other same => ?_⟩,
            fun key place stop keyLength ofKey => ⟨nofun, fun all inFront _ => ?_⟩⟩
          · simp only [Option.ite_none_right_eq_some, Option.some.injEq] at same
            exact same.2 ▸ ofNext
          · have le : key ≤ greatest := isGreatest ▸ all bound rfl
            split
            · rename_i nonmax
              exact (KsTable.ahead_some_iff ofNext ofKey).mpr
                ⟨lt_of_le_of_lt le (lt_saturatedIncrementVec nonmax), inFront⟩
            · have below := CellShape.cellId_mono (le.trans (le_saturatedIncrementVec greatest))
                ofKey ofNext
              exact (KsTable.ahead_none_iff ofKey).mpr ⟨below.not_gt, inFront⟩

/-! ## Setting bounds -/

/-- Where an iterator with these bounds starts. -/
def placeOf (source : IterationSource blooms) (reverse : Bool) (lower upper : Option Bytes) :
    Option (CellId × Option Bytes) :=
  if reverse then upperPlace source upper else lowerPlace source lower

/-- The cell an iterator with these bounds does not enter. -/
def stopOf (source : IterationSource blooms) (reverse : Bool) (lower upper : Option Bytes) :
    Option CellId :=
  if reverse then boundEnd source .backward lower else boundEnd source .forward upper

theorem Sized.exists_boundCell (sized : Sized source size)
    (fits : source.keyIndexing.checkKeySize bound.length = true) :
    ∃ cell, boundCell source bound = some cell ∧
      source.table.shape.cellId (bound.take size) = some cell := by
  obtain ⟨reduced, length⟩ := sized.reduces bound fits
  obtain ⟨cell, ofBound⟩ := sized.exists_cell length
  exact ⟨cell, by rw [boundCell, reduced, Option.bind_some, ofBound], ofBound⟩

/-- An iterator with these bounds, as if they were set in its direction. -/
def Placed (source : IterationSource blooms) (reverse : Bool) (lower upper : Option Bytes)
    (iter : DbIterator source) : Prop :=
  ∃ place, placeOf source reverse lower upper = some place ∧
    iter = standing source reverse lower upper place (stopOf source reverse lower upper)

theorem placed_call (sized : Sized source size) {iter : DbIterator source} {call : ConfigCall}
    (isBound : call ≠ .reverse) (fits : call.Fits source.keyIndexing)
    (placed : Placed source reverse lower upper iter) :
    ∃ after, iter.call call = some after ∧
      Placed source reverse (call.lower lower) (call.upper upper) after := by
  obtain ⟨place, isPlace, rfl⟩ := placed
  have supports := sized.supports
  cases call with
  | reverse => exact absurd rfl isBound
  | setLowerBound bound =>
      have onlyBound : ∀ other, some bound = some other →
          source.keyIndexing.checkKeySize other.length = true := fun other same =>
        Option.some.inj same ▸ fits
      cases reverse with
      | false =>
          obtain ⟨newPlace, isNew, -⟩ := lowerPlace_spec sized onlyBound
          refine ⟨_, ?_, newPlace, isNew, rfl⟩
          rw [DbIterator.call, setLowerBound_forward supports, isNew]
          rfl
      | true =>
          obtain ⟨cell, isCell, -⟩ := sized.exists_boundCell fits
          refine ⟨_, ?_, place, isPlace, rfl⟩
          rw [DbIterator.call, setLowerBound_backward supports, isCell, Option.map_some]
          have samePlace : (if upper.isNone then (source.table.shape.lastCell, none) else place) =
              place := by
            cases upper with
            | none => exact Option.some.inj isPlace
            | some _ => rfl
          have stop : source.table.nextCell cell .backward =
              stopOf source true (some bound) upper := by
            rw [stopOf, if_pos rfl, boundEnd, Option.bind_some, isCell, Option.bind_some]
          rw [samePlace, stop]
          rfl
  | setUpperBound bound =>
      have onlyBound : ∀ other, some bound = some other →
          source.keyIndexing.checkKeySize other.length = true := fun other same =>
        Option.some.inj same ▸ fits
      cases reverse with
      | false =>
          obtain ⟨cell, isCell, -⟩ := sized.exists_boundCell fits
          refine ⟨_, ?_, place, isPlace, rfl⟩
          rw [DbIterator.call, setUpperBound_forward supports, isCell, Option.map_some]
          have stop : source.table.nextCell cell .forward =
              stopOf source false lower (some bound) := by
            rw [stopOf, if_neg Bool.false_ne_true, boundEnd, Option.bind_some, isCell,
              Option.bind_some]
          rw [stop]
          rfl
      | true =>
          obtain ⟨newPlace, isNew, -⟩ := upperPlace_spec sized onlyBound
          refine ⟨_, ?_, newPlace, isNew, rfl⟩
          rw [DbIterator.call, setUpperBound_backward supports, isNew]
          rfl

theorem placed_calls (sized : Sized source size) {iter : DbIterator source}
    {calls : List ConfigCall} (areBounds : ∀ call ∈ calls, call ≠ .reverse)
    (fit : ∀ call ∈ calls, call.Fits source.keyIndexing)
    (placed : Placed source reverse lower upper iter) :
    ∃ after, calls.foldlM call iter = some after ∧
      Placed source reverse (calls.foldl ConfigCall.lower lower)
        (calls.foldl ConfigCall.upper upper) after := by
  induction calls generalizing iter lower upper with
  | nil => exact ⟨iter, rfl, placed⟩
  | cons first rest ih =>
      obtain ⟨next, called, nextPlaced⟩ :=
        placed_call sized (areBounds first List.mem_cons_self) (fit first List.mem_cons_self) placed
      obtain ⟨after, ran, afterPlaced⟩ :=
        ih (fun call member => areBounds call (List.mem_cons_of_mem _ member))
          (fun call member => fit call (List.mem_cons_of_mem _ member)) nextPlaced
      refine ⟨after, ?_, afterPlaced⟩
      rw [List.foldlM_cons, called]
      exact ran

theorem placed_new (source : IterationSource blooms) :
    Placed source false none none (new source) :=
  ⟨(source.table.shape.firstCell, none), rfl, rfl⟩

theorem placed_reversed_new (sized : Sized source size) :
    ∃ after, (new source).reversed = some after ∧ Placed source true none none after := by
  refine ⟨_, ?_, (source.table.shape.lastCell, none), rfl, rfl⟩
  rw [reversed, if_pos sized.supports]
  rfl

/-! ## The records in a range -/

/-- A full key lies in the bounds. -/
def InRange (lower upper : Option Bytes) (full : Bytes) : Prop :=
  (∀ bound, lower = some bound → bound ≤ full) ∧ ∀ bound, upper = some bound → full < bound

theorem isOutOfBound_lower (full : Bytes) :
    (standing source reverse lower upper place stop).isOutOfBound full true = false ↔
      ∀ bound, lower = some bound → bound ≤ full := by
  simp only [isOutOfBound, standing, if_true]
  cases lower with
  | none => simp
  | some bound => simp

theorem isOutOfBound_upper (full : Bytes) :
    (standing source reverse lower upper place stop).isOutOfBound full false = false ↔
      ∀ bound, upper = some bound → full < bound := by
  simp only [isOutOfBound, standing, Bool.false_eq_true, if_false]
  cases upper with
  | none => simp
  | some bound => simp

/-- With key reduction both bounds are checked. -/
theorem checkBounds_reduced (reduced : source.keyIndexing.needCheckIndexKey = true) (full : Bytes) :
    (standing source reverse lower upper place stop).checkBounds full = none ↔
      InRange lower upper full := by
  rw [InRange, ← @isOutOfBound_lower _ source reverse lower upper place stop,
    ← @isOutOfBound_upper _ source reverse lower upper place stop]
  simp only [DbIterator.checkBounds, withKeyReduction, reduced, if_true]
  cases reverse with
  | true =>
      simp only [standing, Bool.not_true]
      cases isOutOfBound _ full true <;> cases isOutOfBound _ full false <;> simp
  | false =>
      simp only [standing, Bool.not_false]
      cases isOutOfBound _ full true <;> cases isOutOfBound _ full false <;> simp

/-- Without key reduction only the end bound is checked. -/
theorem checkBounds_whole (whole : source.keyIndexing.needCheckIndexKey = false) (full : Bytes) :
    (standing source reverse lower upper place stop).checkBounds full = none ↔
      if reverse then ∀ bound, lower = some bound → bound ≤ full
      else ∀ bound, upper = some bound → full < bound := by
  have check : (standing source reverse lower upper place stop).checkBounds full = none ↔
      (standing source reverse lower upper place stop).isOutOfBound full reverse = false := by
    unfold checkBounds withKeyReduction
    rw [if_neg (ne_true_of_eq_false whole), show (standing source reverse lower upper place
      stop).reverse = reverse from rfl, ite_eq_right_iff, Bool.eq_false_iff]
    exact ⟨fun stops out => (nomatch stops out), fun within out => absurd out within⟩
  rw [check]
  cases reverse with
  | true => rw [isOutOfBound_lower, if_pos rfl]
  | false => rw [isOutOfBound_upper, if_neg Bool.false_ne_true]

/-- What an iterator yields when its place and its checks single out some full keys. -/
theorem collect_of_ahead {iter : DbIterator source} (ok : source.Ok) (orderly : source.Orderly)
    (ready : iter.Ready cell) {Wanted : Bytes → Prop}
    (ahead : ∀ key record, source.records key = some record →
      (iter.Ahead cell key ∧ iter.checkBounds record.1 = none ↔ Wanted record.1)) :
    ∃ list, iter.collect = some list ∧
      list.Pairwise (fun first second => iter.direction.Before first.1 second.1) ∧
      ∀ record, record ∈ list ↔ source.Live record ∧ Wanted record.1 := by
  obtain ⟨listed, ran, enumerates⟩ := collect_spec ok.walks (Or.inr orderly) ready
  have inside : ∀ key record, (key, record) ∈ listed ↔
      source.records key = some record ∧ Wanted record.1 := fun key record => by
    rw [enumerates.complete, DbIterator.inside, IterationSource.seen_eq_records ok,
      Option.filter_eq_some_iff, decide_eq_true_eq]
    constructor
    · rintro ⟨isAhead, held, check⟩
      exact ⟨held, (ahead key record held).mp ⟨isAhead, check⟩⟩
    · rintro ⟨held, wanted⟩
      obtain ⟨isAhead, check⟩ := (ahead key record held).mpr wanted
      exact ⟨isAhead, held, check⟩
  refine ⟨listed.map Prod.snd, ran, ?_, fun record => ?_⟩
  · refine List.pairwise_map.mpr (enumerates.sorted.imp_of_mem fun {first second} firstIn secondIn
      before => ?_)
    have firstHeld := ((inside first.1 first.2).mp firstIn).1
    have secondHeld := ((inside second.1 second.2).mp secondIn).1
    rw [← IterationSource.seen_eq_records ok] at firstHeld secondHeld
    cases turned : iter.direction with
    | forward =>
        rw [turned] at before
        exact orderly.follows _ _ _ _ firstHeld secondHeld before
    | backward =>
        rw [turned] at before
        exact orderly.follows _ _ _ _ secondHeld firstHeld before
  · rw [List.mem_map]
    constructor
    · rintro ⟨⟨key, found⟩, member, rfl⟩
      obtain ⟨held, wanted⟩ := (inside key found).mp member
      exact ⟨⟨key, held⟩, wanted⟩
    · rintro ⟨⟨key, held⟩, wanted⟩
      exact ⟨(key, record), (inside key record).mpr ⟨held, wanted⟩, rfl⟩

/-- A cell not behind the cell of the end bound is in front of the cell not entered. -/
theorem inFront_of_boundEnd (sized : Sized source size) {direction : Direction}
    {ending : Option Bytes} (ofKey : source.table.shape.cellId key = some cell)
    (fits : ∀ bound, ending = some bound →
      source.keyIndexing.checkKeySize bound.length = true)
    (notBehind : ∀ bound, ending = some bound → ¬direction.Before (bound.take size) key) :
    ∀ last, boundEnd source direction ending = some last → direction.Before cell last := by
  intro last isLast
  cases ending with
  | none => cases isLast
  | some bound =>
      obtain ⟨boundAt, isBoundAt, ofBound⟩ := sized.exists_boundCell (fits bound rfl)
      rw [boundEnd, Option.bind_some, isBoundAt, Option.bind_some] at isLast
      refine KsTable.before_hop (KsTable.holds_of_cellId ofBound) isLast fun further => ?_
      exact notBehind bound rfl (KsTable.before_of_before ofBound ofKey further)

/-- What is ahead of a placed iterator and passes its checks is the range. -/
theorem placed_range (sized : Sized source size)
    (lowerFits : ∀ bound, lower = some bound →
      source.keyIndexing.checkKeySize bound.length = true)
    (upperFits : ∀ bound, upper = some bound →
      source.keyIndexing.checkKeySize bound.length = true) {iter : DbIterator source}
    (placed : Placed source reverse lower upper iter) :
    ∃ cell, iter.Ready cell ∧ ∀ key record, source.records key = some record →
      (iter.Ahead cell key ∧ iter.checkBounds record.1 = none ↔ InRange lower upper record.1) := by
  obtain ⟨place, isPlace, rfl⟩ := placed
  have ready : PlaceOk source place →
      (standing source reverse lower upper place (stopOf source reverse lower upper)).Ready
        place.1 := fun placeOk =>
    ⟨rfl, placeOk.holds, placeOk.behind, fun entry _ => cachesFit_clear entry.levels.blobs⟩
  cases reverse with
  | false =>
      obtain ⟨found, isFound, placeOk, ahead⟩ := lowerPlace_spec sized lowerFits
      obtain rfl : place = found := Option.some.inj (isPlace.symm.trans isFound)
      refine ⟨place.1, ready placeOk, fun key record held => ?_⟩
      obtain ⟨isKey, length, cell, ofKey⟩ := sized.of_records held
      have full := sized.ok.sized key record held
      refine Iff.trans (and_congr_left fun _ => ahead key cell _ length ofKey) ?_
      constructor
      · rintro ⟨⟨above, -⟩, check⟩
        cases reduced : source.keyIndexing.needCheckIndexKey with
        | true => exact (checkBounds_reduced reduced _).mp check
        | false =>
            have below := (checkBounds_whole reduced _).mp check
            refine ⟨fun bound isBound => ?_, below⟩
            have least := above bound isBound
            rwa [isKey, sized.take_eq reduced full,
              sized.take_eq reduced (lowerFits bound isBound)] at least
      · intro inRange
        refine ⟨⟨fun bound isBound => ?_, .inr ?_⟩, ?_⟩
        · rw [isKey]
          exact take_le_take size (inRange.1 bound isBound)
        · refine inFront_of_boundEnd sized ofKey upperFits fun bound isBound further => ?_
          have less := take_le_take size (le_of_lt (inRange.2 bound isBound))
          rw [← isKey] at less
          exact further.not_ge less
        · cases reduced : source.keyIndexing.needCheckIndexKey with
          | true => exact (checkBounds_reduced reduced _).mpr inRange
          | false => exact (checkBounds_whole reduced _).mpr inRange.2
  | true =>
      obtain ⟨found, isFound, placeOk, ahead⟩ := upperPlace_spec sized upperFits
      obtain rfl : place = found := Option.some.inj (isPlace.symm.trans isFound)
      refine ⟨place.1, ready placeOk, fun key record held => ?_⟩
      obtain ⟨isKey, length, cell, ofKey⟩ := sized.of_records held
      have full := sized.ok.sized key record held
      have inFront : InRange lower upper record.1 →
          ∀ last, boundEnd source .backward lower = some last → last < cell := fun inRange => by
        refine inFront_of_boundEnd sized ofKey lowerFits fun bound isBound further => ?_
        have least := take_le_take size (inRange.1 bound isBound)
        rw [← isKey] at least
        exact further.not_ge least
      obtain ⟨aheadWhole, aheadReduced⟩ :=
        ahead key cell (stopOf source true lower upper) length ofKey
      cases reduced : source.keyIndexing.needCheckIndexKey with
      | true =>
          refine ⟨fun ⟨_, check⟩ => (checkBounds_reduced reduced _).mp check, fun inRange =>
            ⟨aheadReduced (fun bound isBound => ?_) (.inr (inFront inRange)) reduced,
              (checkBounds_reduced reduced _).mpr inRange⟩⟩
          rw [isKey]
          exact take_le_take size (le_of_lt (inRange.2 bound isBound))
      | false =>
          have whole : key = record.1 := isKey.trans (sized.take_eq reduced full)
          refine Iff.trans (and_congr_left fun _ => aheadWhole reduced) ?_
          constructor
          · rintro ⟨⟨below, -⟩, check⟩
            exact ⟨(checkBounds_whole reduced _).mp check, whole ▸ below⟩
          · intro inRange
            exact ⟨⟨whole ▸ inRange.2, .inr (inFront inRange)⟩,
              (checkBounds_whole reduced _).mpr inRange.1⟩

/-- The last bounds fit when all do. -/
theorem fits_foldl {calls : List ConfigCall} (fit : ∀ call ∈ calls, call.Fits source.keyIndexing)
    (lowerFits : ∀ bound, lower = some bound →
      source.keyIndexing.checkKeySize bound.length = true)
    (upperFits : ∀ bound, upper = some bound →
      source.keyIndexing.checkKeySize bound.length = true) :
    (∀ bound, calls.foldl ConfigCall.lower lower = some bound →
        source.keyIndexing.checkKeySize bound.length = true) ∧
      ∀ bound, calls.foldl ConfigCall.upper upper = some bound →
        source.keyIndexing.checkKeySize bound.length = true := by
  induction calls generalizing lower upper with
  | nil => exact ⟨lowerFits, upperFits⟩
  | cons first rest ih =>
      have here := fit first List.mem_cons_self
      refine ih (fun call member => fit call (List.mem_cons_of_mem _ member)) ?_ ?_
      · cases first with
        | setLowerBound bound => exact fun other same => Option.some.inj same ▸ here
        | setUpperBound bound => exact lowerFits
        | reverse => exact lowerFits
      · cases first with
        | setLowerBound bound => exact upperFits
        | setUpperBound bound => exact fun other same => Option.some.inj same ▸ here
        | reverse => exact upperFits

/-- Over keys of one length or reduced to a leading part, an iterator whose bounds are set after
its direction yields exactly the live records in the range, each once and in order. -/
theorem collect_range (ok : source.Ok) (leading : Leading source.keyIndexing) (reverse : Bool)
    (calls : List ConfigCall) (areBounds : ∀ call ∈ calls, call ≠ .reverse)
    (fit : ∀ call ∈ calls, call.Fits source.keyIndexing) :
    ∃ list, (configure source ((if reverse then [.reverse] else []) ++ calls)).bind collect =
        some list ∧
      list.Pairwise (fun first second => (Direction.ofBool reverse).Before first.1 second.1) ∧
      ∀ record, record ∈ list ↔
        source.Live record ∧ InRange (lastLower calls) (lastUpper calls) record.1 := by
  obtain ⟨size, sized⟩ := exists_sized ok leading
  have started : ∃ start, (if reverse then [ConfigCall.reverse] else []).foldlM call (new source) =
      some start ∧ Placed source reverse none none start := by
    cases reverse with
    | false => exact ⟨new source, rfl, placed_new source⟩
    | true =>
        obtain ⟨start, turned, placed⟩ := placed_reversed_new sized
        refine ⟨start, ?_, placed⟩
        simp only [if_true, List.foldlM_cons, List.foldlM_nil, call, turned]
        rfl
  obtain ⟨start, isStart, placedStart⟩ := started
  obtain ⟨iter, ran, placed⟩ := placed_calls sized areBounds fit placedStart
  have configured : configure source ((if reverse then [.reverse] else []) ++ calls) = some iter := by
    rw [configure, List.foldlM_append, isStart]
    exact ran
  obtain ⟨lowerFits, upperFits⟩ := @fits_foldl _ source none none calls fit nofun nofun
  obtain ⟨cell, ready, ahead⟩ := placed_range sized lowerFits upperFits placed
  obtain ⟨list, collected, sorted, listed⟩ := collect_of_ahead ok
    (IterationSource.orderly_of_leading ok leading) ready ahead
  have direction : iter.direction = Direction.ofBool reverse := by
    obtain ⟨place, -, rfl⟩ := placed
    rfl
  rw [direction] at sorted
  exact ⟨list, by rw [configured, Option.bind_some, collected], sorted, listed⟩

end DbIterator

/-! ## A source of a few records -/

namespace IterationSource

variable {blooms : BloomFilter Bytes}

theorem mem_of_lookup {frames : List (WalPosition × Bytes × Bytes)} {position : WalPosition}
    {record : Bytes × Bytes} (read : frames.lookup position = some record) :
    (position, record) ∈ frames := by
  obtain ⟨before, after, rfl, -⟩ := List.lookup_eq_some_iff.mp read
  exact List.mem_append_right _ List.mem_cons_self

/-- A key space over a log of a few frames. -/
def ofFrames (table : KsTable blooms) (keyIndexing : KeyIndexing)
    (frames : List (WalPosition × Bytes × Bytes)) : IterationSource blooms where
  table := table
  lastProcessed := none
  keyIndexing := keyIndexing
  hashKey := id
  record key position := (frames.lookup position).filter fun record =>
    keyIndexing.reduceKey id record.1 = some key

theorem ok_ofFrames {table : KsTable blooms} {keyIndexing : KeyIndexing}
    {frames : List (WalPosition × Bytes × Bytes)} (ok : table.Ok)
    (verified : ∀ key : Bytes, table.shape.cellId key ≠ none)
    (framed : ∀ frame ∈ frames, frame.1.offset ≠ u64Max ∧
      keyIndexing.checkKeySize frame.2.1.length = true) :
    (ofFrames table keyIndexing frames).Ok where
  table := ok
  verified key _ := verified key
  unreadable key position sentinel := by
    cases read : frames.lookup position with
    | none => exact congrArg (Option.filter _) read
    | some record => exact absurd sentinel (framed _ (mem_of_lookup read)).1
  reduces key record held := by
    obtain ⟨position, -, read⟩ := Option.bind_eq_some_iff.mp held
    exact of_decide_eq_true (Option.filter_eq_some_iff.mp read).2
  sized key record held := by
    obtain ⟨position, -, read⟩ := Option.bind_eq_some_iff.mp held
    have inLog := (Option.filter_eq_some_iff.mp read).1
    exact (framed _ (mem_of_lookup inLog)).2

/-- The key space of the run of a removed key. -/
def removedKey (keyIndexing : KeyIndexing) (live : LiveCell Bytes KsTable.passAll) :
    IterationSource KsTable.passAll :=
  ofFrames (KsTable.ofLive (.header keyIndexing.indexKeySize) true live) keyIndexing
    [(⟨0, 20⟩, [1], [10]), (⟨20, 20⟩, [2], [20])]

/-- The run of a removed key leaves a source at rest. -/
theorem exists_removedKey (keyIndexing : KeyIndexing)
    (sized : keyIndexing.checkKeySize 1 = true)
    (check : LiveCell Bytes KsTable.passAll → Bool)
    (checked : (runEvents (LiveCell.step KsTable.twoKeys) KsTable.removedKey
      (LiveCell.new none : LiveCell Bytes KsTable.passAll)).any check = true) :
    ∃ live, runEvents (LiveCell.step KsTable.twoKeys) KsTable.removedKey
        (LiveCell.new none : LiveCell Bytes KsTable.passAll) = some live ∧
      check live = true ∧ (removedKey keyIndexing live).Ok := by
  obtain ⟨live, ran, met, ok⟩ := KsTable.exists_removedKey check checked
  refine ⟨live, ran, met, ok_ofFrames (ok _ _) (fun key missing => ?_) fun frame member => ?_⟩
  · cases (KsTable.cellId_oneCell key).symm.trans missing
  · simp only [List.mem_cons, List.not_mem_nil, or_false] at member
    rcases member with rfl | rfl
    · exact ⟨by decide, sized⟩
    · exact ⟨by decide, sized⟩

end IterationSource

theorem DbIterator.collect_range_removedKey :
    ∃ live, runEvents (LiveCell.step KsTable.twoKeys) KsTable.removedKey
        (LiveCell.new none : LiveCell Bytes KsTable.passAll) = some live ∧
      (DbIterator.configure (IterationSource.removedKey (.fixed 1) live)
        [.reverse, .setUpperBound [3], .setLowerBound [1]]).bind DbIterator.collect =
          some [([2], [20])] ∧
      ∃ list, (DbIterator.configure (IterationSource.removedKey (.fixed 1) live)
          [.reverse, .setUpperBound [3], .setLowerBound [1]]).bind DbIterator.collect =
            some list ∧
        list.Pairwise (fun first second => Direction.backward.Before first.1 second.1) ∧
        ∀ record, record ∈ list ↔ (IterationSource.removedKey (.fixed 1) live).Live record ∧
          DbIterator.InRange (some [1]) (some [3]) record.1 := by
  obtain ⟨live, ran, met, ok⟩ := IterationSource.exists_removedKey (.fixed 1) rfl (fun live =>
    decide ((DbIterator.configure (IterationSource.removedKey (.fixed 1) live)
      [.reverse, .setUpperBound [3], .setLowerBound [1]]).bind DbIterator.collect =
        some [([2], [20])])) (by decide +kernel)
  exact ⟨live, ran, of_decide_eq_true met, DbIterator.collect_range ok trivial true
    [.setUpperBound [3], .setLowerBound [1]] (by decide)
    (List.forall_mem_cons.mpr ⟨rfl, List.forall_mem_cons.mpr ⟨rfl, nofun⟩⟩)⟩

end Tidehunter.Iterators
