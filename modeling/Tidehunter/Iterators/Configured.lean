import Tidehunter.Iterators.Bounded

/-!
# Iterators after any calls

Keys that are their own index keys can be of any length. A forward iterator then starts behind
the string next below its lower bound, and keys between the two are given although they are below
the bound. When an iterator is turned around, the bounds that are set are placed again; what a
missing bound would have reset is left over from the other direction.
-/

namespace Tidehunter.Iterators

open Library Wal Index KeyShape LargeTable Db

/-! ## Keys that are their own index keys -/

/-- The index holds the keys themselves. -/
def Exact (indexing : KeyIndexing) : Prop :=
  indexing = .variableLength ∨ ∃ keyLength, indexing = .fixed keyLength

namespace Exact

variable {indexing : KeyIndexing}

theorem reduceKey (exact : Exact indexing) (hashKey : Bytes → Bytes) (key : Bytes) :
    indexing.reduceKey hashKey key = some key := by
  rcases exact with rfl | ⟨keyLength, rfl⟩
  · rfl
  · rfl

theorem needCheckIndexKey (exact : Exact indexing) : indexing.needCheckIndexKey = false := by
  rcases exact with rfl | ⟨keyLength, rfl⟩
  · rfl
  · rfl

theorem ne_hash (exact : Exact indexing) : indexing ≠ .hash := by
  rcases exact with rfl | ⟨keyLength, rfl⟩
  · exact nofun
  · exact nofun

end Exact

/-! ## What calls leave -/

/-- The bounds and the direction after some calls, and the bounds at the last turn. -/
structure IteratorConfig where
  reverse : Bool
  lower : Option Bytes
  upper : Option Bytes
  turn : Option (Option Bytes × Option Bytes)
  deriving DecidableEq, Repr

namespace IteratorConfig

def new : IteratorConfig := ⟨false, none, none, none⟩

def call (config : IteratorConfig) : ConfigCall → IteratorConfig
  | .setLowerBound bound => { config with lower := some bound }
  | .setUpperBound bound => { config with upper := some bound }
  | .reverse => { config with
      reverse := !config.reverse
      turn := some (config.lower, config.upper) }

def ofCalls (calls : List ConfigCall) : IteratorConfig := calls.foldl call new

/-- The lower bound at the last turn. -/
def turnLower (config : IteratorConfig) : Option Bytes := config.turn.bind Prod.fst

def turnUpper (config : IteratorConfig) : Option Bytes := config.turn.bind Prod.snd

def direction (config : IteratorConfig) : Direction := Direction.ofBool config.reverse

/-- A bound is never taken back. -/
structure Keeps (config : IteratorConfig) : Prop where
  lower : config.lower = none → config.turnLower = none
  upper : config.upper = none → config.turnUpper = none

theorem keeps_new : new.Keeps := ⟨fun _ => rfl, fun _ => rfl⟩

theorem Keeps.call {config : IteratorConfig} (keeps : config.Keeps) (made : ConfigCall) :
    (config.call made).Keeps := by
  cases made with
  | setLowerBound bound => exact ⟨nofun, keeps.upper⟩
  | setUpperBound bound => exact ⟨keeps.lower, nofun⟩
  | reverse => exact ⟨id, id⟩

end IteratorConfig

/-- The bound a call sets. -/
def ConfigCall.bound : ConfigCall → Option Bytes
  | setLowerBound bound => some bound
  | setUpperBound bound => some bound
  | reverse => none

namespace DbIterator

variable {blooms : BloomFilter Bytes} {source : IterationSource blooms} {config : IteratorConfig}

/-- The bound of a call has a cell. -/
def HasCell (source : IterationSource blooms) (made : ConfigCall) : Prop :=
  ∀ bound, made.bound = some bound → source.table.shape.cellId bound ≠ none

/-- Where an iterator starts after some calls: a turned iterator without a lower bound is left
where its upper bound had put it. -/
def startOf (source : IterationSource blooms) (config : IteratorConfig) : Option (CellId × Option Bytes) :=
  if config.reverse then upperPlace source config.upper
  else if config.lower.isNone && config.turn.isSome then upperPlace source config.turnUpper
  else lowerPlace source config.lower

/-- The end that the other direction left and no bound has set again. -/
def staleEnd (source : IterationSource blooms) (config : IteratorConfig) : Option CellId :=
  if config.reverse then boundEnd source .forward config.turnUpper
  else boundEnd source .backward config.turnLower

/-- The cell an iterator does not enter after some calls. -/
def endOf (source : IterationSource blooms) (config : IteratorConfig) : Option CellId :=
  if config.reverse then
    if config.lower.isSome then boundEnd source .backward config.lower else staleEnd source config
  else
    if config.upper.isSome then boundEnd source .forward config.upper else staleEnd source config

/-- An iterator after calls that led to a configuration. -/
def Stands (source : IterationSource blooms) (config : IteratorConfig) (iter : DbIterator source) : Prop :=
  ∃ place, startOf source config = some place ∧
    iter = standing source config.reverse config.lower config.upper place (endOf source config)

/-- The bounds of a configuration have cells. -/
structure Located (source : IterationSource blooms) (config : IteratorConfig) : Prop where
  lower : ∀ bound, config.lower = some bound → source.table.shape.cellId bound ≠ none
  upper : ∀ bound, config.upper = some bound → source.table.shape.cellId bound ≠ none
  turnUpper : ∀ bound, config.turnUpper = some bound → source.table.shape.cellId bound ≠ none
  turnLower : ∀ bound, config.turnLower = some bound → source.table.shape.cellId bound ≠ none

theorem located_new (source : IterationSource blooms) : Located source .new :=
  ⟨nofun, nofun, nofun, nofun⟩

theorem Located.call (located : Located source config) {made : ConfigCall}
    (hasCell : HasCell source made) : Located source (config.call made) := by
  cases made with
  | setLowerBound bound => exact ⟨hasCell, located.upper, located.turnUpper, located.turnLower⟩
  | setUpperBound bound => exact ⟨located.lower, hasCell, located.turnUpper, located.turnLower⟩
  | reverse => exact ⟨located.lower, located.upper, located.upper, located.lower⟩

/-! ## The places of bounds -/

section Places

variable {bound : Bytes} {cell : CellId} {lower upper : Option Bytes}

theorem boundCell_exact (exact : Exact source.keyIndexing) (bound : Bytes) :
    boundCell source bound = source.table.shape.cellId bound := by
  rw [boundCell, IterationSource.reduceKey, exact.reduceKey, Option.bind_some]

theorem lowerPlace_exact (exact : Exact source.keyIndexing) (bound : Bytes) :
    lowerPlace source (some bound) =
      (source.table.shape.cellId (saturatedDecrementVec bound)).map fun cell =>
        (cell, if isNonzero (saturatedDecrementVec bound) || isNonzero bound then
          some (saturatedDecrementVec bound) else none) := by
  rw [lowerPlace, IterationSource.reduceKey, exact.reduceKey, Option.bind_some]

theorem upperPlace_exact (exact : Exact source.keyIndexing) (bound : Bytes) :
    upperPlace source (some bound) =
      (source.table.shape.cellId bound).map fun cell => (cell, some bound) := by
  rw [upperPlace, IterationSource.reduceKey, exact.reduceKey, Option.bind_some,
    exact.needCheckIndexKey]
  rfl

theorem length_saturatedDecrementVec (key : Bytes) :
    (saturatedDecrementVec key).length = key.length := by
  unfold saturatedDecrementVec
  cases step : decrement key with
  | some smaller => exact length_carry step
  | none => rfl

/-- A key in front of which an iterator with this lower bound starts. -/
def PastLower (lower : Option Bytes) (key : Bytes) : Prop :=
  ∀ bound, lower = some bound → ∀ smaller, decrement bound = some smaller → smaller < key

/-- Where a lower bound puts a forward iterator over keys of any length. -/
theorem lowerPlace_pastLower (exact : Exact source.keyIndexing)
    (located : ∀ bound, lower = some bound → source.table.shape.cellId bound ≠ none) :
    ∃ place, lowerPlace source lower = some place ∧ PlaceOk source place ∧
      ∀ (key : Bytes) (cell : CellId) (stop : Option CellId),
        source.table.shape.cellId key = some cell →
          (source.table.Ahead .forward stop place.1 place.2 key ↔
            PastLower lower key ∧ (cell = place.1 ∨ ∀ last, stop = some last → cell < last)) := by
  cases lower with
  | none =>
      refine ⟨_, rfl, ⟨KsTable.holds_startCell source.table .forward, by rintro _ ⟨⟩⟩,
        fun key cell stop ofKey => ?_⟩
      rw [KsTable.ahead_none_iff ofKey]
      exact and_congr_left fun _ =>
        iff_of_true (CellShape.firstCell_le ofKey).not_gt (by rintro _ ⟨⟩)
  | some bound =>
      have onlyBound : ∀ key, PastLower (some bound) key ↔
          ∀ smaller, decrement bound = some smaller → smaller < key := fun key =>
        ⟨fun all => all bound rfl, fun past other same => Option.some.inj same ▸ past⟩
      simp only [onlyBound]
      have stepLocated := CellShape.cellId_ne_none_of_length
        (length_saturatedDecrementVec bound).symm (located bound rfl)
      obtain ⟨start, ofStep⟩ := Option.ne_none_iff_exists'.mp stepLocated
      rw [lowerPlace_exact exact, ofStep, Option.map_some]
      cases step : decrement bound with
      | some smaller =>
          have isSmaller : saturatedDecrementVec bound = smaller := by
            rw [saturatedDecrementVec, step, Option.getD_some]
          rw [isSmaller] at ofStep ⊢
          rw [isNonzero_of_decrement step, Bool.or_true, if_pos rfl]
          refine ⟨_, rfl, ⟨KsTable.holds_of_cellId ofStep, fun other same =>
            Option.some.inj same ▸ ofStep⟩, fun key cell stop ofKey => ?_⟩
          rw [KsTable.ahead_some_iff ofStep ofKey]
          exact and_congr_left fun _ =>
            ⟨fun past other same => Option.some.inj same ▸ past, fun all => all smaller rfl⟩
      | none =>
          have isSame : saturatedDecrementVec bound = bound := by
            rw [saturatedDecrementVec, step, Option.getD_none]
          have zero : isNonzero bound = false := (carry_eq_none_iff bound).mp step
          rw [isSame] at ofStep ⊢
          rw [zero, Bool.or_self, if_neg Bool.false_ne_true]
          refine ⟨_, rfl, ⟨KsTable.holds_of_cellId ofStep, by rintro _ ⟨⟩⟩,
            fun key cell stop ofKey => ?_⟩
          have zeros : bound = List.replicate bound.length 0 :=
            List.eq_replicate_of_mem fun byte member => by
              by_contra nonzero
              have any : isNonzero bound = true :=
                List.any_eq_true.mpr ⟨byte, member, decide_eq_true nonzero⟩
              cases zero.symm.trans any
          rw [zeros] at ofStep
          rw [KsTable.ahead_none_iff ofKey]
          exact and_congr_left fun _ =>
            iff_of_true (CellShape.cellId_zeros_le ofStep ofKey).not_gt (by rintro _ ⟨⟩)

/-- Where an upper bound puts a backward iterator over keys of any length. -/
theorem upperPlace_located (exact : Exact source.keyIndexing)
    (located : ∀ bound, upper = some bound → source.table.shape.cellId bound ≠ none) :
    ∃ place, upperPlace source upper = some place ∧ PlaceOk source place ∧
      ∀ (key : Bytes) (cell : CellId) (stop : Option CellId),
        source.table.shape.cellId key = some cell →
          (source.table.Ahead .backward stop place.1 place.2 key ↔
            (∀ bound, upper = some bound → key < bound) ∧
              (cell = place.1 ∨ ∀ last, stop = some last → last < cell)) := by
  cases upper with
  | none =>
      refine ⟨_, rfl, ⟨KsTable.holds_startCell source.table .backward, nofun⟩,
        fun key cell stop ofKey => ?_⟩
      rw [KsTable.ahead_none_iff ofKey]
      exact and_congr_left fun _ => iff_of_true (CellShape.le_lastCell ofKey).not_gt nofun
  | some bound =>
      obtain ⟨start, ofBound⟩ := Option.ne_none_iff_exists'.mp (located bound rfl)
      rw [upperPlace_exact exact, ofBound, Option.map_some]
      refine ⟨_, rfl, ⟨KsTable.holds_of_cellId ofBound, fun other same =>
        Option.some.inj same ▸ ofBound⟩, fun key cell stop ofKey => ?_⟩
      rw [KsTable.ahead_some_iff ofBound ofKey]
      exact and_congr_left fun _ =>
        ⟨fun less other same => Option.some.inj same ▸ less, fun all => all bound rfl⟩

end Places

/-! ## Calls -/

section Calls

variable {iter : DbIterator source}

theorem supports_exact (exact : Exact source.keyIndexing) :
    supportsIteratorBound source = true :=
  decide_eq_true exact.ne_hash

theorem boundEnd_some (exact : Exact source.keyIndexing) {bound : Bytes} {cell : CellId}
    (ofBound : source.table.shape.cellId bound = some cell) (direction : Direction) :
    boundEnd source direction (some bound) = source.table.nextCell cell direction := by
  rw [boundEnd, Option.bind_some, boundCell_exact exact, ofBound, Option.bind_some]

theorem exists_lowerPlace (exact : Exact source.keyIndexing) {bound : Bytes}
    (located : source.table.shape.cellId bound ≠ none) :
    ∃ place, lowerPlace source (some bound) = some place := by
  obtain ⟨place, isPlace, -⟩ := lowerPlace_pastLower exact fun other same =>
    Option.some.inj same ▸ located
  exact ⟨place, isPlace⟩

theorem exists_upperPlace (exact : Exact source.keyIndexing) {bound : Bytes}
    (located : source.table.shape.cellId bound ≠ none) :
    ∃ place, upperPlace source (some bound) = some place := by
  obtain ⟨place, isPlace, -⟩ := upperPlace_located exact fun other same =>
    Option.some.inj same ▸ located
  exact ⟨place, isPlace⟩

theorem stands_setLowerBound (exact : Exact source.keyIndexing) {bound : Bytes}
    (located : source.table.shape.cellId bound ≠ none) (stands : Stands source config iter) :
    ∃ after, iter.setLowerBound bound = some after ∧
      Stands source (config.call (.setLowerBound bound)) after := by
  obtain ⟨place, isPlace, rfl⟩ := stands
  obtain ⟨reverse, lower, upper, turn⟩ := config
  have supports := supports_exact exact
  cases reverse with
  | false =>
      obtain ⟨newPlace, isNew⟩ := exists_lowerPlace exact located
      refine ⟨_, ?_, newPlace, isNew, rfl⟩
      rw [setLowerBound_forward supports, isNew, Option.map_some]
      rfl
  | true =>
      obtain ⟨cell, ofBound⟩ := Option.ne_none_iff_exists'.mp located
      refine ⟨_, ?_, place, isPlace, rfl⟩
      rw [setLowerBound_backward supports, boundCell_exact exact, ofBound, Option.map_some,
        ← boundEnd_some exact ofBound]
      have samePlace : (if upper.isNone then (source.table.shape.lastCell, none) else place) =
          place := by
        cases upper with
        | none => exact Option.some.inj isPlace
        | some _ => rfl
      rw [samePlace]
      rfl

theorem stands_setUpperBound (exact : Exact source.keyIndexing) {bound : Bytes}
    (located : source.table.shape.cellId bound ≠ none) (stands : Stands source config iter) :
    ∃ after, iter.setUpperBound bound = some after ∧
      Stands source (config.call (.setUpperBound bound)) after := by
  obtain ⟨place, isPlace, rfl⟩ := stands
  obtain ⟨reverse, lower, upper, turn⟩ := config
  have supports := supports_exact exact
  cases reverse with
  | false =>
      obtain ⟨cell, ofBound⟩ := Option.ne_none_iff_exists'.mp located
      refine ⟨_, ?_, place, isPlace, rfl⟩
      rw [setUpperBound_forward supports, boundCell_exact exact, ofBound, Option.map_some,
        ← boundEnd_some exact ofBound]
      rfl
  | true =>
      obtain ⟨newPlace, isNew⟩ := exists_upperPlace exact located
      refine ⟨_, ?_, newPlace, isNew, rfl⟩
      rw [setUpperBound_backward supports, isNew, Option.map_some]
      rfl

/-- The bounds of a turned iterator are set again, the lower one first. -/
theorem reversed_standing (exact : Exact source.keyIndexing) (reverse : Bool)
    (lower upper : Option Bytes) (place : CellId × Option Bytes) (stop : Option CellId) :
    (standing source reverse lower upper place stop).reversed =
      (standing source (!reverse) lower upper
        (if upper.isNone then (source.table.shape.lastCell, place.2) else place)
          stop).resetLowerBound.bind resetUpperBound := by
  rw [reversed, if_pos (supports_exact exact)]
  cases upper with
  | none => rfl
  | some _ => rfl

/-- Without bounds no end is left over. -/
theorem endOf_unbounded (keeps : config.Keeps) (noLower : config.lower = none)
    (noUpper : config.upper = none) : endOf source config = none := by
  simp [endOf, staleEnd, noLower, noUpper, keeps.lower noLower, keeps.upper noUpper, boundEnd]

theorem startOf_unbounded (keeps : config.Keeps) (noLower : config.lower = none)
    (noUpper : config.upper = none) {place : CellId × Option Bytes}
    (isPlace : startOf source config = some place) : place.2 = none := by
  simp only [startOf, noLower, noUpper, keeps.upper noUpper, upperPlace, lowerPlace] at isPlace
  split at isPlace
  · rw [← Option.some.inj isPlace]
  · split at isPlace
    · rw [← Option.some.inj isPlace]
    · rw [← Option.some.inj isPlace]

theorem stands_reversed (exact : Exact source.keyIndexing) (keeps : config.Keeps)
    (located : Located source config) (stands : Stands source config iter) :
    ∃ after, iter.reversed = some after ∧ Stands source (config.call .reverse) after := by
  obtain ⟨place, isPlace, rfl⟩ := stands
  rw [reversed_standing exact]
  have supports := supports_exact exact
  obtain ⟨reverse, lower, upper, turn⟩ := config
  rcases lower with - | lower
  · rcases upper with - | upper
    · have noPrev := startOf_unbounded keeps rfl rfl isPlace
      have noStop := @endOf_unbounded _ source _ keeps rfl rfl
      have stillNone := @endOf_unbounded _ source _ (keeps.call .reverse) rfl rfl
      refine ⟨standing source (!reverse) none none (source.table.shape.lastCell, none) none, ?_,
        (source.table.shape.lastCell, none), ?_, ?_⟩
      · show some (standing source (!reverse) none none (source.table.shape.lastCell, place.2)
          (endOf source _)) = _
        rw [noPrev, noStop]
      · cases reverse <;> rfl
      · rw [stillNone]
        rfl
    · show ∃ after, (standing source (!reverse) none none place
        (endOf source _)).setUpperBound upper = some after ∧ _
      cases reverse with
      | false =>
          obtain ⟨newPlace, isNew⟩ := exists_upperPlace exact (located.upper upper rfl)
          refine ⟨_, ?_, newPlace, isNew, rfl⟩
          rw [Bool.not_false, setUpperBound_backward supports, isNew, Option.map_some]
          rfl
      | true =>
          obtain ⟨cell, ofUpper⟩ := Option.ne_none_iff_exists'.mp (located.upper upper rfl)
          refine ⟨_, ?_, place, isPlace, rfl⟩
          rw [Bool.not_true, setUpperBound_forward supports, boundCell_exact exact, ofUpper,
            Option.map_some, ← boundEnd_some exact ofUpper]
          rfl
  · show ∃ after, ((standing source (!reverse) none upper _
      (endOf source _)).setLowerBound lower).bind resetUpperBound = some after ∧ _
    cases reverse with
    | false =>
        obtain ⟨cell, ofLower⟩ := Option.ne_none_iff_exists'.mp (located.lower lower rfl)
        rw [Bool.not_false, setLowerBound_backward supports, boundCell_exact exact, ofLower,
          Option.map_some, Option.bind_some, ← boundEnd_some exact ofLower]
        cases upper with
        | none => exact ⟨_, rfl, (source.table.shape.lastCell, none), rfl, rfl⟩
        | some upper =>
            show ∃ after, (standing source true (some lower) none place _).setUpperBound upper =
              some after ∧ _
            obtain ⟨newPlace, isNew⟩ := exists_upperPlace exact (located.upper upper rfl)
            refine ⟨_, ?_, newPlace, isNew, rfl⟩
            rw [setUpperBound_backward supports, isNew, Option.map_some]
            rfl
    | true =>
        obtain ⟨newPlace, isNew⟩ := exists_lowerPlace exact (located.lower lower rfl)
        rw [Bool.not_true, setLowerBound_forward supports, isNew, Option.map_some,
          Option.bind_some]
        cases upper with
        | none => exact ⟨_, rfl, newPlace, isNew, rfl⟩
        | some upper =>
            show ∃ after, (standing source false (some lower) none newPlace _).setUpperBound upper =
              some after ∧ _
            obtain ⟨cell, ofUpper⟩ := Option.ne_none_iff_exists'.mp (located.upper upper rfl)
            refine ⟨_, ?_, newPlace, isNew, rfl⟩
            rw [setUpperBound_forward supports, boundCell_exact exact, ofUpper, Option.map_some,
              ← boundEnd_some exact ofUpper]
            rfl

theorem stands_call (exact : Exact source.keyIndexing) (keeps : config.Keeps)
    (located : Located source config) {made : ConfigCall} (hasCell : HasCell source made)
    (stands : Stands source config iter) :
    ∃ after, iter.call made = some after ∧ Stands source (config.call made) after := by
  cases made with
  | setLowerBound bound => exact stands_setLowerBound exact (hasCell bound rfl) stands
  | setUpperBound bound => exact stands_setUpperBound exact (hasCell bound rfl) stands
  | reverse => exact stands_reversed exact keeps located stands

/-- A bound without a cell is a panic. -/
theorem call_eq_none (exact : Exact source.keyIndexing) {made : ConfigCall}
    (noCell : ¬HasCell source made) (stands : Stands source config iter) :
    iter.call made = none := by
  obtain ⟨place, -, rfl⟩ := stands
  obtain ⟨bound, isBound, noCell⟩ : ∃ bound, made.bound = some bound ∧
      source.table.shape.cellId bound = none := by
    simpa [HasCell] using noCell
  have noStep : source.table.shape.cellId (saturatedDecrementVec bound) = none := by
    by_contra located
    exact CellShape.cellId_ne_none_of_length (length_saturatedDecrementVec bound) located noCell
  have supports := supports_exact exact
  obtain ⟨reverse, lower, upper, turn⟩ := config
  cases made with
  | reverse => cases isBound
  | setLowerBound other =>
      obtain rfl := Option.some.inj isBound
      cases reverse with
      | false =>
          rw [call, setLowerBound_forward supports, lowerPlace_exact exact, noStep]
          rfl
      | true =>
          rw [call, setLowerBound_backward supports, boundCell_exact exact, noCell]
          rfl
  | setUpperBound other =>
      obtain rfl := Option.some.inj isBound
      cases reverse with
      | false =>
          rw [call, setUpperBound_forward supports, boundCell_exact exact, noCell]
          rfl
      | true =>
          rw [call, setUpperBound_backward supports, upperPlace_exact exact, noCell]
          rfl

theorem stands_calls (exact : Exact source.keyIndexing) {calls : List ConfigCall}
    (hasCells : ∀ made ∈ calls, HasCell source made) (keeps : config.Keeps)
    (located : Located source config) (stands : Stands source config iter) :
    ∃ after, calls.foldlM call iter = some after ∧
      Stands source (calls.foldl IteratorConfig.call config) after ∧
      Located source (calls.foldl IteratorConfig.call config) := by
  induction calls generalizing iter config with
  | nil => exact ⟨iter, rfl, stands, located⟩
  | cons first rest ih =>
      obtain ⟨next, called, nextStands⟩ :=
        stands_call exact keeps located (hasCells first List.mem_cons_self) stands
      obtain ⟨after, ran, afterStands⟩ :=
        ih (fun made member => hasCells made (List.mem_cons_of_mem _ member)) (keeps.call first)
          (located.call (hasCells first List.mem_cons_self)) nextStands
      refine ⟨after, ?_, afterStands⟩
      rw [List.foldlM_cons, called]
      exact ran

theorem calls_eq_none (exact : Exact source.keyIndexing) {calls : List ConfigCall}
    (noCell : ¬∀ made ∈ calls, HasCell source made) (keeps : config.Keeps)
    (located : Located source config) (stands : Stands source config iter) :
    calls.foldlM call iter = none := by
  induction calls generalizing iter config with
  | nil => exact absurd (fun _ member => absurd member List.not_mem_nil) noCell
  | cons first rest ih =>
      by_cases hasCell : HasCell source first
      · obtain ⟨next, called, nextStands⟩ := stands_call exact keeps located hasCell stands
        rw [List.foldlM_cons, called]
        refine ih (fun all => noCell fun made member => ?_) (keeps.call first)
          (located.call hasCell) nextStands
        rcases List.mem_cons.mp member with rfl | inRest
        · exact hasCell
        · exact all made inRest
      · rw [List.foldlM_cons, call_eq_none exact hasCell stands]
        rfl

theorem stands_new (source : IterationSource blooms) : Stands source .new (new source) :=
  ⟨(source.table.shape.firstCell, none), rfl, rfl⟩

end Calls

/-! ## What is left over -/

/-- A key that the bounds of a configuration let through. -/
def InScope (config : IteratorConfig) (key : Bytes) : Prop :=
  (∀ bound, config.upper = some bound → key < bound) ∧
    if config.reverse then ∀ bound, config.lower = some bound → bound ≤ key
    else PastLower config.lower key

/-- A key behind the place that a turned iterator without a lower bound is left at. -/
def BehindStart (source : IterationSource blooms) (config : IteratorConfig) (key : Bytes) : Prop :=
  config.reverse = false ∧ config.lower = none ∧ config.turn ≠ none ∧
    (∀ bound, config.turnUpper = some bound → key ≤ bound) ∧
      (config.turnUpper = none → source.table.shape.cellId key ≠ some source.table.shape.lastCell)

/-- A key in a cell behind the end that is left over. -/
def BehindEnd (source : IterationSource blooms) (config : IteratorConfig) (key : Bytes) : Prop :=
  (if config.reverse then config.lower else config.upper) = none ∧
    ∃ place stop cell, startOf source config = some place ∧
      staleEnd source config = some stop ∧ source.table.shape.cellId key = some cell ∧
      cell ≠ place.1 ∧ ¬config.direction.Before cell stop

/-- A key of the scope that nothing left over keeps the iterator from. -/
def Reaches (source : IterationSource blooms) (config : IteratorConfig) (key : Bytes) : Prop :=
  InScope config key ∧ ¬BehindStart source config key ∧ ¬BehindEnd source config key

section Reach

variable {key : Bytes} {cell : CellId} {place : CellId × Option Bytes}

theorem inFront_of_boundEnd_exact (exact : Exact source.keyIndexing) {direction : Direction}
    {ending : Option Bytes} (ofKey : source.table.shape.cellId key = some cell)
    (located : ∀ bound, ending = some bound → source.table.shape.cellId bound ≠ none)
    (notBehind : ∀ bound, ending = some bound → ¬direction.Before bound key) :
    ∀ last, boundEnd source direction ending = some last → direction.Before cell last := by
  intro last isLast
  cases ending with
  | none => cases isLast
  | some bound =>
      obtain ⟨boundAt, ofBound⟩ := Option.ne_none_iff_exists'.mp (located bound rfl)
      rw [boundEnd_some exact ofBound] at isLast
      refine KsTable.before_hop (KsTable.holds_of_cellId ofBound) isLast fun further => ?_
      exact notBehind bound rfl (KsTable.before_of_before ofBound ofKey further)

/-- The end keeps an iterator from a key of its scope only when it is left over. -/
theorem inFront_iff (exact : Exact source.keyIndexing) (located : Located source config)
    (isPlace : startOf source config = some place)
    (ofKey : source.table.shape.cellId key = some cell)
    (above : config.reverse = true → ∀ bound, config.lower = some bound → bound ≤ key)
    (below : ∀ bound, config.upper = some bound → key < bound) :
    (cell = place.1 ∨ ∀ last, endOf source config = some last →
        config.direction.Before cell last) ↔ ¬BehindEnd source config key := by
  have stale : (if config.reverse then config.lower else config.upper) = none →
      ((cell = place.1 ∨ ∀ last, staleEnd source config = some last →
        config.direction.Before cell last) ↔ ¬BehindEnd source config key) := by
    intro unset
    constructor
    · rintro reached ⟨-, other, stop, otherCell, isOther, isStop, ofOther, elsewhere, behind⟩
      cases Option.some.inj (isPlace.symm.trans isOther)
      cases Option.some.inj (ofKey.symm.trans ofOther)
      rcases reached with here | inFront
      · exact elsewhere here
      · exact behind (inFront stop isStop)
    · intro notBehind
      by_contra unreached
      obtain ⟨elsewhere, stop, isStop, behind⟩ : cell ≠ place.1 ∧ ∃ stop,
          staleEnd source config = some stop ∧ ¬config.direction.Before cell stop := by
        simpa only [not_or, not_forall, exists_prop] using unreached
      exact notBehind ⟨unset, place, stop, cell, isPlace, isStop, ofKey, elsewhere, behind⟩
  obtain ⟨reverse, lower, upper, turn⟩ := config
  cases reverse with
  | false =>
      cases upper with
      | none => exact stale rfl
      | some bound =>
          refine iff_of_true (.inr ?_) nofun
          exact inFront_of_boundEnd_exact exact ofKey located.upper fun other same =>
            (below other same).not_gt
  | true =>
      cases lower with
      | none => exact stale rfl
      | some bound =>
          refine iff_of_true (.inr ?_) nofun
          exact inFront_of_boundEnd_exact exact ofKey located.lower fun other same =>
            (above rfl other same).not_gt

/-- Where a forward iterator starts after some calls. -/
theorem ahead_forward (exact : Exact source.keyIndexing) (located : Located source config)
    (forward : config.reverse = false) (isPlace : startOf source config = some place)
    (ofKey : source.table.shape.cellId key = some cell) (stop : Option CellId) :
    source.table.Ahead .forward stop place.1 place.2 key ↔
      (PastLower config.lower key ∧ ¬BehindStart source config key) ∧
        (cell = place.1 ∨ ∀ last, stop = some last → cell < last) := by
  rw [startOf, forward, if_neg Bool.false_ne_true] at isPlace
  by_cases left : config.lower = none ∧ config.turn ≠ none
  · obtain ⟨noLower, turned⟩ := left
    rw [if_pos (by simp [noLower, Option.isSome_iff_ne_none.mpr turned])] at isPlace
    have past : PastLower config.lower key := fun bound isBound =>
      nomatch noLower.symm.trans isBound
    rw [and_iff_right past]
    cases isUpper : config.turnUpper with
    | none =>
        rw [isUpper] at isPlace
        obtain rfl := Option.some.inj isPlace
        rw [KsTable.ahead_none_iff ofKey]
        refine and_congr_left fun _ => ⟨?_, fun notBehind less => ?_⟩
        · rintro notBefore ⟨-, -, -, -, elsewhere⟩
          refine elsewhere isUpper (ofKey.trans (congrArg some ?_))
          exact le_antisymm (CellShape.le_lastCell ofKey) (not_lt.mp notBefore)
        · refine notBehind ⟨forward, noLower, turned, fun bound isBound => ?_, fun _ same => ?_⟩
          · cases isUpper.symm.trans isBound
          · exact less.ne (Option.some.inj (ofKey.symm.trans same))
    | some bound =>
        obtain ⟨start, ofBound⟩ := Option.ne_none_iff_exists'.mp (located.turnUpper bound isUpper)
        rw [isUpper, upperPlace_exact exact, ofBound, Option.map_some] at isPlace
        obtain rfl := Option.some.inj isPlace
        rw [KsTable.ahead_some_iff ofBound ofKey]
        refine and_congr_left fun _ => ⟨?_, fun notBehind => not_le.mp fun le => ?_⟩
        · rintro past ⟨-, -, -, upTo, -⟩
          exact past.not_ge (upTo bound isUpper)
        · refine notBehind ⟨forward, noLower, turned, fun other same => ?_, fun none => ?_⟩
          · cases Option.some.inj (isUpper.symm.trans same)
            exact le
          · cases isUpper.symm.trans none
  · have notStart : ¬BehindStart source config key := fun behind =>
      left ⟨behind.2.1, behind.2.2.1⟩
    rw [if_neg (by simpa [Option.isSome_iff_ne_none] using left)] at isPlace
    obtain ⟨found, isFound, -, ahead⟩ := lowerPlace_pastLower exact located.lower
    obtain rfl := Option.some.inj (isPlace.symm.trans isFound)
    rw [and_iff_left notStart]
    exact ahead key cell stop ofKey

/-- What is ahead of an iterator after some calls and passes its checks. -/
theorem ahead_standing (exact : Exact source.keyIndexing)
    (located : Located source config) (isPlace : startOf source config = some place)
    (ofKey : source.table.shape.cellId key = some cell) :
    (source.table.Ahead config.direction (endOf source config) place.1 place.2 key ∧
        (standing source config.reverse config.lower config.upper place
          (endOf source config)).checkBounds key = none) ↔
      Reaches source config key := by
  rw [checkBounds_whole exact.needCheckIndexKey]
  have inFront := inFront_iff exact located isPlace ofKey
  unfold Reaches InScope
  cases turned : config.reverse with
  | true =>
      have notStart : ¬BehindStart source config key := fun behind =>
        nomatch turned.symm.trans behind.1
      obtain ⟨found, isFound, -, ahead⟩ := upperPlace_located exact located.upper
      rw [startOf, turned, if_pos rfl] at isPlace
      obtain rfl := Option.some.inj (isPlace.symm.trans isFound)
      have iff := ahead key cell (endOf source config) ofKey
      rw [IteratorConfig.direction, turned] at inFront ⊢
      rw [if_pos rfl, if_pos rfl]
      refine (and_congr_left fun _ => iff).trans ⟨?_, ?_⟩
      · rintro ⟨⟨below, reached⟩, above⟩
        exact ⟨⟨below, above⟩, notStart, (inFront (fun _ => above) below).mp reached⟩
      · rintro ⟨⟨below, above⟩, -, notEnd⟩
        exact ⟨⟨below, (inFront (fun _ => above) below).mpr notEnd⟩, above⟩
  | false =>
      have iff := ahead_forward exact located turned isPlace ofKey (endOf source config)
      rw [IteratorConfig.direction, turned] at inFront ⊢
      rw [if_neg Bool.false_ne_true, if_neg Bool.false_ne_true]
      refine (and_congr_left fun _ => iff).trans ⟨?_, ?_⟩
      · rintro ⟨⟨⟨past, notStart⟩, reached⟩, below⟩
        exact ⟨⟨below, past⟩, notStart, (inFront nofun below).mp reached⟩
      · rintro ⟨⟨below, past⟩, notStart, notEnd⟩
        exact ⟨⟨⟨past, notStart⟩, (inFront nofun below).mpr notEnd⟩, below⟩

end Reach

/-! ## The records after any calls -/

theorem orderly_of_exact (ok : source.Ok) (exact : Exact source.keyIndexing) :
    source.Orderly ∧ ∀ key record, source.records key = some record → record.1 = key := by
  have same : ∀ key record, source.records key = some record → record.1 = key :=
    fun key record held => by
      have reduced := ok.reduces key record held
      rw [IterationSource.reduceKey, exact.reduceKey] at reduced
      exact Option.some.inj reduced
  refine ⟨⟨fun key other first second held otherHeld less => ?_, fun _ => ?_⟩, same⟩
  · rw [IterationSource.seen_eq_records ok] at held otherHeld
    rwa [same key first held, same other second otherHeld]
  · rwa [IterationSource.seen_eq_records ok]

theorem placeOk_startOf (exact : Exact source.keyIndexing) (located : Located source config)
    {place : CellId × Option Bytes} (isPlace : startOf source config = some place) :
    PlaceOk source place := by
  have ofUpper : ∀ upper, (∀ bound, upper = some bound →
      source.table.shape.cellId bound ≠ none) → upperPlace source upper = some place →
        PlaceOk source place := fun upper cells isUpper => by
    obtain ⟨found, isFound, placeOk, -⟩ := upperPlace_located exact cells
    obtain rfl := Option.some.inj (isUpper.symm.trans isFound)
    exact placeOk
  unfold startOf at isPlace
  split at isPlace
  · exact ofUpper _ located.upper isPlace
  · split at isPlace
    · exact ofUpper _ located.turnUpper isPlace
    · obtain ⟨found, isFound, placeOk, -⟩ := lowerPlace_pastLower exact located.lower
      obtain rfl := Option.some.inj (isPlace.symm.trans isFound)
      exact placeOk

/-- An iterator yields the live records it reaches. -/
theorem collect_standing (ok : source.Ok) (exact : Exact source.keyIndexing)
    (located : Located source config) {iter : DbIterator source}
    (stands : Stands source config iter) :
    ∃ list, iter.collect = some list ∧
      list.Pairwise (fun first second => config.direction.Before first.1 second.1) ∧
      ∀ record, record ∈ list ↔ source.Live record ∧ Reaches source config record.1 := by
  obtain ⟨place, isPlace, rfl⟩ := stands
  obtain ⟨orderly, same⟩ := orderly_of_exact ok exact
  have placeOk := placeOk_startOf exact located isPlace
  have ready : (standing source config.reverse config.lower config.upper place
      (endOf source config)).Ready place.1 :=
    ⟨rfl, placeOk.holds, placeOk.behind, fun entry _ => cachesFit_clear entry.levels.blobs⟩
  have ahead : ∀ key record, source.records key = some record →
      ((standing source config.reverse config.lower config.upper place
          (endOf source config)).Ahead place.1 key ∧
        (standing source config.reverse config.lower config.upper place
          (endOf source config)).checkBounds record.1 = none ↔
        Reaches source config record.1) := fun key record held => by
    obtain ⟨position, shown⟩ :=
      IterationSource.view_of_seen (IterationSource.seen_eq_records ok ▸ held)
    obtain ⟨cell, ofKey, -⟩ := Option.bind_eq_some_iff.mp shown
    rw [same key record held]
    exact ahead_standing exact located isPlace ofKey
  exact collect_of_ahead ok orderly ready ahead

/-- What calls make of a new iterator. -/
theorem exists_configured (exact : Exact source.keyIndexing) {calls : List ConfigCall}
    (hasCells : ∀ made ∈ calls, HasCell source made) :
    ∃ iter, configure source calls = some iter ∧ Stands source (.ofCalls calls) iter ∧
      Located source (.ofCalls calls) :=
  stands_calls exact hasCells IteratorConfig.keeps_new (located_new source) (stands_new source)

theorem configure_eq_none (exact : Exact source.keyIndexing) {calls : List ConfigCall}
    (noCell : ¬∀ made ∈ calls, HasCell source made) : configure source calls = none :=
  calls_eq_none exact noCell IteratorConfig.keeps_new (located_new source) (stands_new source)

end DbIterator

namespace IteratorConfig

variable (config : IteratorConfig) (calls : List ConfigCall)

theorem lower_foldl : (calls.foldl call config).lower = calls.foldl ConfigCall.lower config.lower := by
  induction calls generalizing config with
  | nil => rfl
  | cons made rest ih => cases made <;> exact ih _

theorem upper_foldl : (calls.foldl call config).upper = calls.foldl ConfigCall.upper config.upper := by
  induction calls generalizing config with
  | nil => rfl
  | cons made rest ih => cases made <;> exact ih _

theorem turn_foldl (areBounds : ∀ made ∈ calls, made ≠ .reverse) :
    (calls.foldl call config).turn = config.turn ∧
      (calls.foldl call config).reverse = config.reverse := by
  induction calls generalizing config with
  | nil => exact ⟨rfl, rfl⟩
  | cons made rest ih =>
      have restBounds := fun other member => areBounds other (List.mem_cons_of_mem made member)
      cases made with
      | setLowerBound bound => exact ih _ restBounds
      | setUpperBound bound => exact ih _ restBounds
      | reverse => exact absurd rfl (areBounds _ List.mem_cons_self)

/-- Every reverse call turns the iterator. -/
theorem reverse_foldl : (calls.foldl call config).reverse =
    (config.reverse ^^ decide (calls.count .reverse % 2 = 1)) := by
  induction calls generalizing config with
  | nil => simp
  | cons made rest ih =>
      rw [List.foldl_cons, ih]
      cases made with
      | setLowerBound bound => simp [call]
      | setUpperBound bound => simp [call]
      | reverse =>
          have parity : decide ((rest.count .reverse + 1) % 2 = 1) =
              !decide (rest.count ConfigCall.reverse % 2 = 1) := by
            rw [← decide_not, decide_eq_decide]
            omega
          rw [List.count_cons_self, parity, call, Bool.not_xor, Bool.xor_not]

end IteratorConfig

namespace DbIterator

variable {blooms : BloomFilter Bytes} {source : IterationSource blooms}

/-! ## Variable length -/

/-- Without a turn nothing is left over. -/
theorem reaches_of_not_turned {config : IteratorConfig} (forward : config.reverse = false)
    (noTurn : config.turn = none) (key : Bytes) :
    Reaches source config key ↔ InScope config key := by
  refine and_iff_left ⟨fun behind => behind.2.2.1 noTurn, ?_⟩
  rintro ⟨-, place, stop, cell, -, isStop, -⟩
  rw [staleEnd, forward, if_neg Bool.false_ne_true, IteratorConfig.turnLower, noTurn] at isStop
  cases isStop

theorem pastLower_of_le {lower : Option Bytes} {key : Bytes}
    (above : ∀ bound, lower = some bound → bound ≤ key) : PastLower lower key :=
  fun bound isBound _ step =>
    lt_of_lt_of_le (before_carry steps_decrement step).1 (above bound isBound)

/-- Over keys of any length, a forward iterator yields exactly the live records in its range if
and only if all its bounds have cells and no live key is between its lower bound and the string
next below that bound. -/
theorem collect_variableLength_iff (ok : source.Ok)
    (isVariable : source.keyIndexing = .variableLength) (calls : List ConfigCall)
    (areBounds : ∀ made ∈ calls, made ≠ .reverse) :
    (∃ list, (configure source calls).bind collect = some list ∧
        list.Pairwise (fun first second => first.1 < second.1) ∧
        ∀ record, record ∈ list ↔
          source.Live record ∧ InRange (lastLower calls) (lastUpper calls) record.1) ↔
      (∀ made ∈ calls, HasCell source made) ∧
        ∀ record, source.Live record →
          (∀ bound, lastUpper calls = some bound → record.1 < bound) →
          PastLower (lastLower calls) record.1 →
            ∀ bound, lastLower calls = some bound → bound ≤ record.1 := by
  have exact : Exact source.keyIndexing := .inl isVariable
  by_cases hasCells : ∀ made ∈ calls, HasCell source made
  · obtain ⟨iter, configured, stands, located⟩ := exists_configured exact hasCells
    obtain ⟨list, collected, sorted, listed⟩ := collect_standing ok exact located stands
    obtain ⟨noTurn, forward⟩ : (IteratorConfig.ofCalls calls).turn = none ∧
        (IteratorConfig.ofCalls calls).reverse = false := IteratorConfig.turn_foldl .new calls areBounds
    have scope : ∀ key, Reaches source (.ofCalls calls) key ↔
        (∀ bound, lastUpper calls = some bound → key < bound) ∧
          PastLower (lastLower calls) key := fun key => by
      rw [reaches_of_not_turned forward noTurn, InScope, forward, IteratorConfig.ofCalls,
        IteratorConfig.lower_foldl, IteratorConfig.upper_foldl]
      rfl
    rw [configured, Option.bind_some, collected]
    rw [IteratorConfig.direction, forward] at sorted
    constructor
    · rintro ⟨other, same, -, inRange⟩
      cases Option.some.inj same
      refine ⟨hasCells, fun record live below past => ?_⟩
      exact ((inRange record).mp ((listed record).mpr
        ⟨live, (scope record.1).mpr ⟨below, past⟩⟩)).2.1
    · rintro ⟨-, noStray⟩
      refine ⟨list, rfl, sorted, fun record => (listed record).trans ?_⟩
      refine and_congr_right fun live => (scope record.1).trans ⟨?_, ?_⟩
      · rintro ⟨below, past⟩
        exact ⟨noStray record live below past, below⟩
      · rintro ⟨above, below⟩
        exact ⟨below, pastLower_of_le above⟩
  · rw [configure_eq_none exact hasCells]
    exact iff_of_false nofun fun cells => hasCells cells.1

/-- A key that is a leading part of the lower bound is given although it is below the bound. -/
theorem removedKey_below_lower :
    ∃ live, runEvents (LiveCell.step KsTable.twoKeys) KsTable.removedKey
        (LiveCell.new none : LiveCell Bytes KsTable.passAll) = some live ∧
      (IterationSource.removedKey .variableLength live).Ok ∧
      (configure (IterationSource.removedKey .variableLength live)
        [.setLowerBound [2, 0], .setUpperBound [3]]).bind collect = some [([2], [20])] ∧
      ([2] : Bytes) < [2, 0] := by
  obtain ⟨live, ran, met, ok⟩ := IterationSource.exists_removedKey .variableLength rfl (fun live =>
    decide ((configure (IterationSource.removedKey .variableLength live)
      [.setLowerBound [2, 0], .setUpperBound [3]]).bind collect = some [([2], [20])]))
    (by decide +kernel)
  exact ⟨live, ran, ok, of_decide_eq_true met, by decide⟩

theorem collect_variableLength_iff_removedKey :
    ∃ live, runEvents (LiveCell.step KsTable.twoKeys) KsTable.removedKey
        (LiveCell.new none : LiveCell Bytes KsTable.passAll) = some live ∧
      (configure (IterationSource.removedKey .variableLength live)
        [.setUpperBound [3], .setLowerBound [1, 7]]).bind collect = some [([2], [20])] ∧
      ((∃ list, (configure (IterationSource.removedKey .variableLength live)
            [.setUpperBound [3], .setLowerBound [1, 7]]).bind collect = some list ∧
          list.Pairwise (fun first second => first.1 < second.1) ∧
          ∀ record, record ∈ list ↔ (IterationSource.removedKey .variableLength live).Live record ∧
            InRange (some [1, 7]) (some [3]) record.1) ↔
        (∀ made ∈ [.setUpperBound [3], .setLowerBound [1, 7]],
          HasCell (IterationSource.removedKey .variableLength live) made) ∧
        ∀ record, (IterationSource.removedKey .variableLength live).Live record →
          (∀ bound, some [3] = some bound → record.1 < bound) →
          PastLower (some [1, 7]) record.1 →
            ∀ bound, some [1, 7] = some bound → bound ≤ record.1) := by
  obtain ⟨live, ran, met, ok⟩ := IterationSource.exists_removedKey .variableLength rfl (fun live =>
    decide ((configure (IterationSource.removedKey .variableLength live)
      [.setUpperBound [3], .setLowerBound [1, 7]]).bind collect = some [([2], [20])]))
    (by decide +kernel)
  exact ⟨live, ran, of_decide_eq_true met, collect_variableLength_iff ok rfl
    [.setUpperBound [3], .setLowerBound [1, 7]] (by decide)⟩

/-! ## Any order of calls -/

/-- The calls that set the same last bounds after the same direction was chosen. -/
def settle (calls : List ConfigCall) : List ConfigCall :=
  (if calls.count .reverse % 2 = 1 then [.reverse] else []) ++
    ((lastLower calls).toList.map .setLowerBound ++ (lastUpper calls).toList.map .setUpperBound)

/-- What the settled calls leave. -/
theorem ofCalls_settle (calls : List ConfigCall) :
    IteratorConfig.ofCalls (settle calls) = ⟨decide (calls.count .reverse % 2 = 1), lastLower calls,
      lastUpper calls, if calls.count .reverse % 2 = 1 then some (none, none) else none⟩ := by
  unfold settle IteratorConfig.ofCalls
  split <;> cases lastLower calls <;> cases lastUpper calls <;> simp_all [IteratorConfig.call, IteratorConfig.new]

/-- The settled calls leave nothing over. -/
theorem reaches_settle (calls : List ConfigCall) (key : Bytes) :
    Reaches source (.ofCalls (settle calls)) key ↔ InScope (.ofCalls calls) key := by
  have sameScope : InScope (.ofCalls (settle calls)) key ↔ InScope (.ofCalls calls) key := by
    rw [ofCalls_settle, InScope, InScope, IteratorConfig.ofCalls, IteratorConfig.lower_foldl, IteratorConfig.upper_foldl,
      IteratorConfig.reverse_foldl, show IteratorConfig.new.reverse = false from rfl, Bool.false_xor]
    rfl
  rw [Reaches, sameScope, ofCalls_settle]
  refine and_iff_left ⟨?_, ?_⟩
  · rintro ⟨forward, -, turned, -⟩
    exact turned (if_neg (of_decide_eq_false forward))
  · rintro ⟨-, place, stop, cell, -, isStop, -⟩
    unfold staleEnd IteratorConfig.turnUpper IteratorConfig.turnLower at isStop
    split at isStop <;> split at isStop <;> cases isStop

/-- The bounds of the settled calls are bounds of the calls. -/
theorem hasCell_settle (exact : Exact source.keyIndexing) {calls : List ConfigCall}
    (hasCells : ∀ made ∈ calls, HasCell source made) :
    ∀ made ∈ settle calls, HasCell source made := by
  obtain ⟨-, -, -, located⟩ := exists_configured exact hasCells
  have ofLower := located.lower
  have ofUpper := located.upper
  rw [IteratorConfig.ofCalls, IteratorConfig.lower_foldl] at ofLower
  rw [IteratorConfig.ofCalls, IteratorConfig.upper_foldl] at ofUpper
  intro made member bound isBound
  rcases List.mem_append.mp member with turn | member
  · split at turn
    · obtain rfl := List.mem_singleton.mp turn
      cases isBound
    · cases turn
  · rcases List.mem_append.mp member with inLower | inUpper
    · obtain ⟨lower, isLower, rfl⟩ := List.mem_map.mp inLower
      cases isBound
      exact ofLower bound (Option.mem_toList.mp isLower)
    · obtain ⟨upper, isUpper, rfl⟩ := List.mem_map.mp inUpper
      cases isBound
      exact ofUpper bound (Option.mem_toList.mp isUpper)

/-- Over keys of one length, an iterator yields what it would yield if its last bounds had been
set after its direction was chosen, if and only if no bound without a cell was replaced and no
live record of its scope is behind a start or an end left over from the other direction. -/
theorem collect_eq_settle_iff (ok : source.Ok) {keyLength : Nat}
    (fixed : source.keyIndexing = .fixed keyLength) (calls : List ConfigCall) :
    (configure source calls).bind collect = (configure source (settle calls)).bind collect ↔
      ((∀ made ∈ settle calls, HasCell source made) →
        (∀ made ∈ calls, HasCell source made) ∧
          ∀ record, source.Live record → InScope (.ofCalls calls) record.1 →
            ¬BehindStart source (.ofCalls calls) record.1 ∧
              ¬BehindEnd source (.ofCalls calls) record.1) := by
  have exact : Exact source.keyIndexing := .inr ⟨keyLength, fixed⟩
  by_cases settledCells : ∀ made ∈ settle calls, HasCell source made
  · obtain ⟨settled, isSettled, settledStands, settledLocated⟩ :=
      exists_configured exact settledCells
    obtain ⟨all, collectedAll, sortedAll, listedAll⟩ :=
      collect_standing ok exact settledLocated settledStands
    rw [isSettled, Option.bind_some, collectedAll, forall_prop_of_true settledCells]
    by_cases hasCells : ∀ made ∈ calls, HasCell source made
    · obtain ⟨iter, configured, stands, located⟩ := exists_configured exact hasCells
      obtain ⟨list, collected, sorted, listed⟩ := collect_standing ok exact located stands
      have sameDirection : (IteratorConfig.ofCalls (settle calls)).direction =
          (IteratorConfig.ofCalls calls).direction := by
        rw [ofCalls_settle, IteratorConfig.direction, IteratorConfig.direction, IteratorConfig.ofCalls,
          IteratorConfig.reverse_foldl, show IteratorConfig.new.reverse = false from rfl, Bool.false_xor]
      rw [sameDirection] at sortedAll
      rw [configured, Option.bind_some, collected, Option.some.injEq, and_iff_right hasCells]
      constructor
      · rintro rfl record live inScope
        exact ((listed record).mp ((listedAll record).mpr
          ⟨live, (reaches_settle calls record.1).mpr inScope⟩)).2.2
      · intro noneBehind
        refine eq_of_mem_iff sorted sortedAll fun record => ?_
        rw [listed, listedAll, reaches_settle]
        exact and_congr_right fun live =>
          ⟨fun reaches => reaches.1, fun inScope => ⟨inScope, noneBehind record live inScope⟩⟩
    · rw [configure_eq_none exact hasCells]
      exact iff_of_false nofun fun cells => hasCells cells.1
  · have noCells : ¬∀ made ∈ calls, HasCell source made := fun hasCells =>
      settledCells (hasCell_settle exact hasCells)
    rw [configure_eq_none exact settledCells, configure_eq_none exact noCells]
    exact iff_of_true rfl fun cells => absurd cells settledCells

/-- An upper bound that was set in reverse keeps the iterator from all keys below it once it is
turned back. -/
theorem removedKey_turned_back :
    ∃ live, runEvents (LiveCell.step KsTable.twoKeys) KsTable.removedKey
        (LiveCell.new none : LiveCell Bytes KsTable.passAll) = some live ∧
      (IterationSource.removedKey (.fixed 1) live).Ok ∧
      (configure (IterationSource.removedKey (.fixed 1) live)
        [.reverse, .setUpperBound [3], .reverse]).bind collect = some [] ∧
      (configure (IterationSource.removedKey (.fixed 1) live)
        [.setUpperBound [3]]).bind collect = some [([2], [20])] := by
  obtain ⟨live, ran, met, ok⟩ := IterationSource.exists_removedKey (.fixed 1) rfl (fun live =>
    decide ((configure (IterationSource.removedKey (.fixed 1) live)
        [.reverse, .setUpperBound [3], .reverse]).bind collect = some []) &&
      decide ((configure (IterationSource.removedKey (.fixed 1) live)
        [.setUpperBound [3]]).bind collect = some [([2], [20])])) (by decide +kernel)
  simp only [Bool.and_eq_true, decide_eq_true_eq] at met
  exact ⟨live, ran, ok, met.1, met.2⟩

theorem collect_eq_settle_iff_removedKey :
    ∃ live, runEvents (LiveCell.step KsTable.twoKeys) KsTable.removedKey
        (LiveCell.new none : LiveCell Bytes KsTable.passAll) = some live ∧
      (configure (IterationSource.removedKey (.fixed 1) live)
        [.setUpperBound [3], .reverse, .setLowerBound [1]]).bind collect = some [([2], [20])] ∧
      ((configure (IterationSource.removedKey (.fixed 1) live)
          [.setUpperBound [3], .reverse, .setLowerBound [1]]).bind collect =
        (configure (IterationSource.removedKey (.fixed 1) live)
          [.reverse, .setLowerBound [1], .setUpperBound [3]]).bind collect ↔
        ((∀ made ∈ [.reverse, .setLowerBound [1], .setUpperBound [3]],
            HasCell (IterationSource.removedKey (.fixed 1) live) made) →
          (∀ made ∈ [.setUpperBound [3], .reverse, .setLowerBound [1]],
            HasCell (IterationSource.removedKey (.fixed 1) live) made) ∧
          ∀ record, (IterationSource.removedKey (.fixed 1) live).Live record →
            InScope (.ofCalls [.setUpperBound [3], .reverse, .setLowerBound [1]]) record.1 →
              ¬BehindStart (IterationSource.removedKey (.fixed 1) live)
                (.ofCalls [.setUpperBound [3], .reverse, .setLowerBound [1]]) record.1 ∧
              ¬BehindEnd (IterationSource.removedKey (.fixed 1) live)
                (.ofCalls [.setUpperBound [3], .reverse, .setLowerBound [1]]) record.1)) := by
  obtain ⟨live, ran, met, ok⟩ := IterationSource.exists_removedKey (.fixed 1) rfl (fun live =>
    decide ((configure (IterationSource.removedKey (.fixed 1) live)
      [.setUpperBound [3], .reverse, .setLowerBound [1]]).bind collect = some [([2], [20])]))
    (by decide +kernel)
  exact ⟨live, ran, of_decide_eq_true met, collect_eq_settle_iff ok rfl
    [.setUpperBound [3], .reverse, .setLowerBound [1]]⟩

end DbIterator

end Tidehunter.Iterators
