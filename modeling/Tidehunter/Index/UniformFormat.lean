import Tidehunter.Index.Format

/-!
# The uniform format

A blob is its entries in key order, each of the same size. The place of a key is estimated from
its prefix, a window around the estimate is read, and the window moves up or down until it holds
the neighbour of the key. Offsets are in bytes, as in the file.
-/

namespace Tidehunter.Index

open Library Wal

variable {K : Type} [LinearOrder K]

/-- The window an iterator keeps from its last step on a blob. -/
structure UniformLookupCache (K : Type) where
  position : WalPosition
  fromOffset : Nat
  toOffset : Nat
  buffer : List (K × WalPosition)
  lastReturnedPos : Nat

/-- The size of an entry, the number of entries in a window, and the place of a key's prefix in
the prefix range of its cell. A window has room for an entry on either side of the estimate. -/
structure UniformLookupIndex (K : Type) where
  elementSize : Nat
  windowSize : Nat
  prefixPos : K → Nat
  cellWidth : K → Nat
  elementSize_pos : 0 < elementSize
  two_le_windowSize : 2 ≤ windowSize

/-- What a window tells about the next entry. -/
inductive WindowOutcome where
  | found (place : Nat)
  | endOfFile
  | moveDown
  | moveUp
  deriving DecidableEq, Repr

namespace UniformLookupIndex

variable (index : UniformLookupIndex K)

def fileLength (content : SortedMap K WalPosition) : Nat :=
  content.entries.length * index.elementSize

/-- The estimated offset of a key and half the size of a window. The length of an empty file
wraps around. -/
def probableKeyOffsetAndWindowSize (key : K) (fileLength : Nat) : Nat × Nat :=
  (min (index.prefixPos key * fileLength / index.cellWidth key)
    ((fileLength + 2 ^ 64 - 1) % 2 ^ 64), index.windowSize / 2)

def lookupWindow (halfWindowSize estimatedOffset fileLength : Nat) : Nat × Nat :=
  let aligned := estimatedOffset / index.elementSize * index.elementSize
  (aligned - halfWindowSize * index.elementSize,
    min (aligned + halfWindowSize * index.elementSize) fileLength)

def moveWindowUp (toOffset halfWindowSize fileLength : Nat) : Nat × Nat :=
  let windowSize := 2 * halfWindowSize * index.elementSize
  let newFrom := min (toOffset - index.elementSize) fileLength
  (newFrom, min (newFrom + windowSize) fileLength)

def moveWindowDown (fromOffset halfWindowSize fileLength : Nat) : Nat × Nat :=
  let windowSize := 2 * halfWindowSize * index.elementSize
  let newTo := min (fromOffset + index.elementSize) fileLength
  (min (newTo - windowSize) fileLength, newTo)

/-- The entries in a range of the file. -/
def read (content : SortedMap K WalPosition) (fromOffset toOffset : Nat) :
    List (K × WalPosition) :=
  (content.entries.drop (fromOffset / index.elementSize)).take
    ((toOffset - fromOffset) / index.elementSize)

/-- The window at the end of the file where a direction starts. -/
def edgeWindow (direction : Direction) (fileLength : Nat) : Nat × Nat :=
  match direction with
  | .forward => (0, min (index.windowSize * index.elementSize) fileLength)
  | .backward => (fileLength - index.windowSize * index.elementSize, fileLength)

def nextEntryUnloadedNoPrev (content : SortedMap K WalPosition) (direction : Direction) :
    Option (K × WalPosition) :=
  let fileLength := index.fileLength content
  let window := index.edgeWindow direction fileLength
  if window.2 ≤ window.1 ∨ fileLength ≤ window.1 then none
  else
    let buffer := index.read content window.1 window.2
    buffer[firstInRange direction buffer.length]?

/-- The place behind a key that was searched. -/
def placeBehind : Option Nat × Nat → Nat
  | (some place, _) => place + 1
  | (none, insertion) => insertion

/-- The place in front of which the smaller keys end. -/
def placeOf : Option Nat × Nat → Nat
  | (some place, _) => place
  | (none, insertion) => insertion

/-- The neighbour of a key in a window, from the place of the key in it. At the ends of the
window the neighbour is outside, unless the file ends there. -/
def windowNext (direction : Direction) (count : Nat) (located : Option Nat × Nat)
    (atStart atEnd : Bool) : WindowOutcome :=
  match direction with
  | .forward =>
      let next := placeBehind located
      if next < count then .found next else if atEnd then .endOfFile else .moveUp
  | .backward =>
      let next := placeOf located
      if next = 0 then if atStart then .endOfFile else .moveDown else .found (next - 1)

/-- What the kept window tells; nothing when the key is not in its range. -/
def cachedNext (held : UniformLookupCache K) (fileLength : Nat) (prevKey : K)
    (direction : Direction) : Option WindowOutcome :=
  match held.buffer.head?, held.buffer.getLast? with
  | some first, some last =>
      if (first.1 ≤ prevKey ∨ held.fromOffset = 0) ∧
          (prevKey ≤ last.1 ∨ held.toOffset = fileLength) then
        some (windowNext direction held.buffer.length
          (if held.buffer[held.lastReturnedPos]?.any fun returned => decide (returned.1 = prevKey)
            then (some held.lastReturnedPos, 0) else binarySearch held.buffer prevKey)
          (held.fromOffset = 0) (held.toOffset = fileLength))
      else none
  | _, _ => none

/-- What a window of the file tells. -/
def windowOutcome (content : SortedMap K WalPosition) (prevKey : K) (direction : Direction)
    (fromOffset toOffset : Nat) : WindowOutcome :=
  let fileLength := index.fileLength content
  let buffer := index.read content fromOffset toOffset
  if buffer.head?.any (fun first => decide (prevKey < first.1)) && fromOffset ≠ 0 then .moveDown
  else if buffer.getLast?.any (fun last => decide (last.1 < prevKey)) && toOffset ≠ fileLength then
    .moveUp
  else windowNext direction buffer.length (binarySearch buffer prevKey) (fromOffset = 0)
    (toOffset = fileLength)

/-- Read windows until one holds the neighbour of the key. -/
def searchWindows (blob : Blob K) (prevKey : K) (direction : Direction) (halfWindowSize : Nat) :
    Nat → Nat × Nat → Option (UniformLookupCache K) →
      Option (K × WalPosition) × Option (UniformLookupCache K)
  | 0, _, cache => (none, cache)
  | fuel + 1, (fromOffset, toOffset), cache =>
      let fileLength := index.fileLength blob.content
      if toOffset - fromOffset < index.elementSize ∨ fileLength ≤ fromOffset then (none, cache)
      else
        let buffer := index.read blob.content fromOffset toOffset
        match index.windowOutcome blob.content prevKey direction fromOffset toOffset with
        | .found place =>
            (buffer[place]?, some ⟨blob.position, fromOffset, toOffset, buffer, place⟩)
        | .endOfFile => (none, cache)
        | .moveDown =>
            searchWindows blob prevKey direction halfWindowSize fuel
              (index.moveWindowDown fromOffset halfWindowSize fileLength) cache
        | .moveUp =>
            searchWindows blob prevKey direction halfWindowSize fuel
              (index.moveWindowUp toOffset halfWindowSize fileLength) cache

/-- Start at the estimate. -/
def searchFromEstimate (blob : Blob K) (prevKey : K) (direction : Direction)
    (cache : Option (UniformLookupCache K)) :
    Option (K × WalPosition) × Option (UniformLookupCache K) :=
  let fileLength := index.fileLength blob.content
  let (probableOffset, halfWindowSize) := index.probableKeyOffsetAndWindowSize prevKey fileLength
  index.searchWindows blob prevKey direction halfWindowSize (blob.content.entries.length + 2)
    (index.lookupWindow halfWindowSize probableOffset fileLength) cache

def nextEntryUnloaded (blob : Blob K) (prev : Option K) (direction : Direction)
    (cache : Option (UniformLookupCache K)) :
    Option (K × WalPosition) × Option (UniformLookupCache K) :=
  match prev with
  | none => (index.nextEntryUnloadedNoPrev blob.content direction, none)
  | some prevKey =>
      let cache := cache.filter fun held => held.position = blob.position
      match cache with
      | none => index.searchFromEstimate blob prevKey direction none
      | some held =>
          match cachedNext held (index.fileLength blob.content) prevKey direction with
          | some (.found place) =>
              (held.buffer[place]?, some { held with lastReturnedPos := place })
          | some .endOfFile => (none, cache)
          | some .moveDown => index.searchFromEstimate blob prevKey direction cache
          | some .moveUp => index.searchFromEstimate blob prevKey direction cache
          | none => index.searchFromEstimate blob prevKey direction cache

/-! ## Windows -/

/-- A buffer is the part of the entries that starts at a place. -/
structure IsWindow (entries buffer : List (K × WalPosition)) (start : Nat) : Prop where
  nonempty : 0 < buffer.length
  inside : start + buffer.length ≤ entries.length
  same : ∀ place, place < buffer.length → buffer[place]? = entries[start + place]?

variable {index} {content : SortedMap K WalPosition} {buffer : List (K × WalPosition)}
  {start : Nat} {prevKey : K} {direction : Direction}

theorem IsWindow.sorted (window : IsWindow content.entries buffer start) :
    buffer.Pairwise fun first second => first.1 < second.1 := by
  rw [List.pairwise_iff_getElem]
  intro place later within laterWithin less
  have first := window.same place within
  have second := window.same later laterWithin
  rw [List.getElem?_eq_getElem within] at first
  rw [List.getElem?_eq_getElem laterWithin] at second
  exact lt_of_place_lt content.sorted first.symm second.symm (by omega)

/-- What lies in front of a place that the search has given, and what lies behind it. -/
theorem around_located {located : Option Nat × Nat} (isLocated : Located buffer prevKey located)
    (sorted : buffer.Pairwise fun first second => first.1 < second.1) :
    (∀ place found, buffer[place]? = some found →
      (place < placeBehind located ↔ found.1 ≤ prevKey)) ∧
    ∀ place found, buffer[place]? = some found →
      (place < placeOf located ↔ found.1 < prevKey) := by
  obtain ⟨found, insertion⟩ := located
  cases found with
  | some keyPlace =>
      obtain ⟨value, present⟩ := isLocated
      simp only [placeBehind, placeOf]
      refine ⟨fun place found here => ⟨fun less => ?_, fun upTo => ?_⟩,
        fun place found here => ⟨fun less => ?_, fun below => ?_⟩⟩
      · exact le_of_place_le sorted here present (by omega)
      · by_contra behind
        exact absurd upTo (lt_of_place_lt sorted present here (by omega)).not_ge
      · exact lt_of_place_lt sorted here present less
      · by_contra behind
        exact absurd below (le_of_place_le sorted present here (by omega)).not_gt
  | none =>
      obtain ⟨-, around⟩ := isLocated
      simp only [placeBehind, placeOf]
      refine ⟨fun place found here => ⟨fun less => ?_, fun upTo => ?_⟩,
        fun place found here => ⟨fun less => ?_, fun below => ?_⟩⟩
      · exact ((around place found here).1 less).le
      · by_contra behind
        exact absurd upTo ((around place found here).2 (by omega)).not_ge
      · exact (around place found here).1 less
      · by_contra behind
        exact absurd below ((around place found here).2 (by omega)).not_gt

/-- A place of the window that splits its bindings splits all of them, if the window reaches as
far as the place needs. -/
theorem splitsAt_of_window (window : IsWindow content.entries buffer start) {next : Nat}
    {front : K → Prop} (downward : ∀ first second, first ≤ second → front second → front first)
    (bounded : next ≤ buffer.length)
    (splits : ∀ place found, buffer[place]? = some found → (place < next ↔ front found.1))
    (first : next = 0 → start = 0)
    (last : next = buffer.length → start + buffer.length = content.entries.length) :
    SplitsAt content.entries front (start + next) := by
  have inside := window.inside
  refine SplitsAt.of_neighbours downward (by omega) ?_ ?_
  · intro binding positive present
    rcases Nat.eq_zero_or_pos next with isFirst | later
    · have := first isFirst
      omega
    · rw [show start + next - 1 = start + (next - 1) by omega,
        ← window.same (next - 1) (by omega)] at present
      exact (splits _ _ present).mp (by omega)
  · intro binding present
    rcases Nat.lt_or_eq_of_le bounded with less | isLast
    · rw [← window.same next less] at present
      exact fun below => absurd ((splits _ _ present).mpr below) (Nat.lt_irrefl _)
    · have within := (List.getElem?_eq_some_iff.mp present).1
      have := last isLast
      omega

/-- The entries up to the key end at a place of the window. -/
theorem nextIn_of_behind (window : IsWindow content.entries buffer start) {next : Nat}
    (bounded : next ≤ buffer.length)
    (behind : ∀ place found, buffer[place]? = some found → (place < next ↔ found.1 ≤ prevKey))
    (first : next = 0 → start = 0)
    (last : next = buffer.length → start + buffer.length = content.entries.length) :
    NextIn .forward (Direction.forward.Past (some prevKey)) content.lookup
      content.entries[start + next]? :=
  SplitsAt.nextIn_forward (splitsAt_of_window window
    (fun _ _ lessEq second past => second (past.trans_le lessEq)) bounded
    (fun place found present => (behind place found present).trans not_lt.symm) first last)

/-- The entries in front of the key end at a place of the window. -/
theorem nextIn_of_front (window : IsWindow content.entries buffer start) {next : Nat}
    (bounded : next ≤ buffer.length)
    (front : ∀ place found, buffer[place]? = some found → (place < next ↔ found.1 < prevKey))
    (first : next = 0 → start = 0)
    (last : next = buffer.length → start + buffer.length = content.entries.length) :
    NextIn .backward (Direction.backward.Past (some prevKey)) content.lookup
      (if start + next = 0 then none else content.entries[start + next - 1]?) :=
  SplitsAt.nextIn_backward (splitsAt_of_window window
    (fun _ _ lessEq second => lessEq.trans_lt second) bounded front first last)

theorem placeBehind_le {located : Option Nat × Nat} (isLocated : Located buffer prevKey located) :
    placeBehind located ≤ buffer.length ∧ placeOf located ≤ buffer.length := by
  obtain ⟨found, insertion⟩ := located
  cases found with
  | some place =>
      obtain ⟨value, present⟩ := isLocated
      have within := (List.getElem?_eq_some_iff.mp present).1
      exact ⟨within, within.le⟩
  | none => exact ⟨isLocated.1, isLocated.1⟩

/-- What a window has to tell: the neighbour of the key, or on which side of the window it is. -/
def WindowRight (content : SortedMap K WalPosition) (buffer : List (K × WalPosition)) (start : Nat)
    (prevKey : K) (direction : Direction) : WindowOutcome → Prop
  | .found place => place < buffer.length ∧
      NextIn direction (direction.Past (some prevKey)) content.lookup buffer[place]?
  | .endOfFile => NextIn direction (direction.Past (some prevKey)) content.lookup none
  | .moveDown => start ≠ 0 ∧ ∀ first, buffer[0]? = some first →
      prevKey < first.1 ∨ direction = .backward ∧ prevKey ≤ first.1
  | .moveUp => start + buffer.length ≠ content.entries.length ∧
      ∀ last, buffer[buffer.length - 1]? = some last →
        last.1 < prevKey ∨ direction = .forward ∧ last.1 ≤ prevKey

theorem windowRight_windowNext (window : IsWindow content.entries buffer start)
    {located : Option Nat × Nat} (isLocated : Located buffer prevKey located)
    {atStart atEnd : Bool} (isStart : atStart = true ↔ start = 0)
    (isEnd : atEnd = true ↔ start + buffer.length = content.entries.length)
    (low : start = 0 ∨ ∀ first, buffer[0]? = some first → first.1 ≤ prevKey)
    (high : start + buffer.length = content.entries.length ∨
      ∀ last, buffer[buffer.length - 1]? = some last → prevKey ≤ last.1) :
    WindowRight content buffer start prevKey direction
      (windowNext direction buffer.length located atStart atEnd) := by
  obtain ⟨behind, front⟩ := around_located isLocated window.sorted
  obtain ⟨behindLe, frontLe⟩ := placeBehind_le isLocated
  have positive := window.nonempty
  have firstEntry := List.getElem?_eq_getElem positive
  have lastWithin : buffer.length - 1 < buffer.length := by omega
  have lastEntry := List.getElem?_eq_getElem lastWithin
  cases direction with
  | forward =>
      simp only [windowNext]
      have step : (placeBehind located = buffer.length →
          start + buffer.length = content.entries.length) →
          NextIn .forward (Direction.forward.Past (some prevKey)) content.lookup
            content.entries[start + placeBehind located]? := by
        refine nextIn_of_behind window behindLe behind fun isFirst => ?_
        rcases low with zero | upTo
        · exact zero
        · have := (behind 0 _ firstEntry).mpr (upTo _ firstEntry)
          omega
      split
      · rename_i less
        refine ⟨less, ?_⟩
        rw [window.same _ less]
        exact step fun isLast => absurd isLast (by omega)
      · rename_i notLess
        have isLast : placeBehind located = buffer.length := by omega
        split
        · rename_i ends
          have next := step fun _ => isEnd.mp ends
          rw [isLast, isEnd.mp ends, List.getElem?_eq_none (Nat.le_refl _)] at next
          exact next
        · rename_i notEnd
          refine ⟨fun ends => notEnd (isEnd.mpr ends), fun last isEntry => Or.inr ⟨rfl, ?_⟩⟩
          exact (behind _ _ isEntry).mp (by omega)
  | backward =>
      simp only [windowNext]
      split
      · rename_i isFirst
        split
        · rename_i starts
          have next := nextIn_of_front window frontLe front (fun _ => isStart.mp starts)
            (fun isLast => by omega)
          rw [if_pos (by have := isStart.mp starts; omega)] at next
          exact next
        · rename_i notStart
          refine ⟨fun zero => notStart (isStart.mpr zero), fun first isEntry => Or.inr ⟨rfl, ?_⟩⟩
          exact not_lt.mp fun below => absurd ((front _ _ isEntry).mpr below) (by omega)
      · rename_i later
        have next := nextIn_of_front window frontLe front (fun isFirst => absurd isFirst later)
          (fun isLast => by
            rcases high with ends | upTo
            · exact ends
            · have below := (front _ _ lastEntry).mp (by omega)
              exact absurd (upTo _ lastEntry) below.not_ge)
        refine ⟨by omega, ?_⟩
        rw [if_neg (by omega), show start + placeOf located - 1 = start + (placeOf located - 1) by
          omega, ← window.same _ (by omega)] at next
        exact next

/-! ## Offsets -/

section

variable (index) {first last halfWindowSize : Nat}

theorem length_read (less : first < last) (inside : last ≤ content.entries.length) :
    (index.read content (first * index.elementSize) (last * index.elementSize)).length =
      last - first := by
  have positive := index.elementSize_pos
  rw [read, ← Nat.sub_mul, Nat.mul_div_cancel _ positive, Nat.mul_div_cancel _ positive,
    List.length_take, List.length_drop]
  omega

theorem isWindow_read (less : first < last) (inside : last ≤ content.entries.length) :
    IsWindow content.entries
      (index.read content (first * index.elementSize) (last * index.elementSize)) first where
  nonempty := by
    rw [index.length_read less inside]
    omega
  inside := by
    rw [index.length_read less inside]
    omega
  same place within := by
    have positive := index.elementSize_pos
    rw [index.length_read less inside] at within
    rw [read, ← Nat.sub_mul, Nat.mul_div_cancel _ positive, Nat.mul_div_cancel _ positive,
      List.getElem?_take_of_lt within, List.getElem?_drop]

omit [LinearOrder K] in
theorem lookupWindow_eq {estimatedOffset : Nat} (positive : 0 < halfWindowSize) {count : Nat}
    (inside : estimatedOffset < count * index.elementSize) :
    ∃ first last, first < last ∧ last ≤ count ∧
      index.lookupWindow halfWindowSize estimatedOffset (count * index.elementSize) =
        (first * index.elementSize, last * index.elementSize) := by
  have place : estimatedOffset / index.elementSize < count :=
    Nat.div_lt_of_lt_mul (by rwa [Nat.mul_comm])
  rw [lookupWindow]
  generalize estimatedOffset / index.elementSize = estimate at place
  refine ⟨estimate - halfWindowSize, min (estimate + halfWindowSize) count,
    lt_min (by omega) (by omega), min_le_right _ _, ?_⟩
  rw [Nat.sub_mul, ← Nat.add_mul, Nat.mul_min_mul_right]

omit [LinearOrder K] in
theorem moveWindowUp_eq {count : Nat} (positive : 0 < last) (inside : last ≤ count) :
    index.moveWindowUp (last * index.elementSize) halfWindowSize (count * index.elementSize) =
      ((last - 1) * index.elementSize,
        min (last - 1 + 2 * halfWindowSize) count * index.elementSize) := by
  have lower : min (last * index.elementSize - index.elementSize) (count * index.elementSize) =
      (last - 1) * index.elementSize := by
    rw [← Nat.sub_one_mul, min_eq_left (Nat.mul_le_mul_right _ (by omega))]
  rw [moveWindowUp, lower, ← Nat.add_mul, Nat.mul_min_mul_right]

omit [LinearOrder K] in
theorem moveWindowDown_eq {count : Nat} (inside : first < count) :
    index.moveWindowDown (first * index.elementSize) halfWindowSize (count * index.elementSize) =
      ((first + 1 - 2 * halfWindowSize) * index.elementSize, (first + 1) * index.elementSize) := by
  have upper : min (first * index.elementSize + index.elementSize) (count * index.elementSize) =
      (first + 1) * index.elementSize := by
    rw [← Nat.succ_mul, min_eq_left (Nat.mul_le_mul_right _ inside)]
  rw [moveWindowDown, upper, ← Nat.sub_mul, min_eq_left (Nat.mul_le_mul_right _ (by omega))]

omit [LinearOrder K] in
theorem edgeWindow_eq (direction : Direction) {count : Nat} (something : 0 < count) :
    ∃ first last, first < last ∧ last ≤ count ∧
      index.edgeWindow direction (count * index.elementSize) =
        (first * index.elementSize, last * index.elementSize) ∧
      (direction = .forward ∧ first = 0 ∨ direction = .backward ∧ last = count) := by
  have wide := index.two_le_windowSize
  cases direction with
  | forward =>
      refine ⟨0, min index.windowSize count, lt_min (by omega) something, min_le_right _ _, ?_,
        Or.inl ⟨rfl, rfl⟩⟩
      simp only [edgeWindow]
      rw [Nat.mul_min_mul_right, Nat.zero_mul]
  | backward =>
      refine ⟨count - index.windowSize, count, by omega, Nat.le_refl _, ?_, Or.inr ⟨rfl, rfl⟩⟩
      simp only [edgeWindow]
      rw [Nat.sub_mul]

theorem windowRight_windowOutcome (less : first < last) (inside : last ≤ content.entries.length)
    (prevKey : K) (direction : Direction) :
    WindowRight content
      (index.read content (first * index.elementSize) (last * index.elementSize)) first prevKey
      direction (index.windowOutcome content prevKey direction (first * index.elementSize)
        (last * index.elementSize)) := by
  have window := index.isWindow_read less inside
  have size := index.length_read less inside
  have positive := index.elementSize_pos
  have starts : first * index.elementSize = 0 ↔ first = 0 := by
    rw [Nat.mul_eq_zero]
    omega
  have ends : last * index.elementSize = content.entries.length * index.elementSize ↔
      last = content.entries.length := Nat.mul_left_inj (by omega)
  have firstEntry := List.getElem?_eq_getElem window.nonempty
  have lastEntry := List.getElem?_eq_getElem (Nat.sub_lt window.nonempty Nat.one_pos)
  generalize isBuffer : index.read content (first * index.elementSize) (last * index.elementSize) =
    buffer at window size firstEntry lastEntry ⊢
  simp only [windowOutcome, isBuffer]
  rw [List.head?_eq_getElem?, List.getLast?_eq_getElem?, firstEntry, lastEntry]
  simp only [Option.any_some, fileLength, ne_eq, starts, ends]
  split
  · rename_i below
    rw [Bool.and_eq_true, decide_eq_true_eq, decide_eq_true_eq] at below
    refine ⟨below.2, fun entry isEntry => Or.inl ?_⟩
    rw [Option.some.inj (isEntry.symm.trans firstEntry)]
    exact below.1
  · rename_i notBelow
    split
    · rename_i above
      rw [Bool.and_eq_true, decide_eq_true_eq, decide_eq_true_eq] at above
      refine ⟨fun atEnd => above.2 (by omega), fun entry isEntry => Or.inl ?_⟩
      rw [Option.some.inj (isEntry.symm.trans lastEntry)]
      exact above.1
    · rename_i notAbove
      refine windowRight_windowNext window (located_binarySearch window.sorted prevKey)
        decide_eq_true_iff ?_ ?_ ?_
      · rw [decide_eq_true_iff]
        omega
      · rw [Bool.and_eq_true, decide_eq_true_eq, decide_eq_true_eq, not_and, not_not] at notBelow
        rcases le_or_gt buffer[0].1 prevKey with upTo | above
        · refine Or.inr fun entry isEntry => ?_
          rw [Option.some.inj (isEntry.symm.trans firstEntry)]
          exact upTo
        · exact Or.inl (notBelow above)
      · rw [Bool.and_eq_true, decide_eq_true_eq, decide_eq_true_eq, not_and, not_not] at notAbove
        rcases le_or_gt prevKey buffer[buffer.length - 1].1 with upTo | below
        · refine Or.inr fun entry isEntry => ?_
          rw [Option.some.inj (isEntry.symm.trans lastEntry)]
          exact upTo
        · have atEnd := notAbove below
          exact Or.inl (by omega)

/-! ## What a step gives -/

/-- The kept window is a part of the file. -/
def Fits (cache : UniformLookupCache K) (content : SortedMap K WalPosition) : Prop :=
  ∃ first last, first < last ∧ last ≤ content.entries.length ∧
    cache.fromOffset = first * index.elementSize ∧ cache.toOffset = last * index.elementSize ∧
    cache.buffer = index.read content cache.fromOffset cache.toOffset

/-- The result of a step is right and what it keeps is of its blob. -/
def StepRight (blob : Blob K) (prev : Option K) (direction : Direction)
    (result : Option (K × WalPosition) × Option (UniformLookupCache K)) : Prop :=
  NextIn direction (direction.Past prev) blob.content.lookup result.1 ∧
    ∀ held, result.2 = some held → held.position = blob.position ∧ index.Fits held blob.content

variable {index} {blob : Blob K} {cache : Option (UniformLookupCache K)}

/-- Read one window, and be right if the search is right where the window sends it. -/
theorem stepRight_searchWindows_succ (less : first < last)
    (inside : last ≤ blob.content.entries.length)
    (fit : ∀ held, cache = some held → held.position = blob.position ∧
      index.Fits held blob.content) {fuel : Nat}
    (down : first ≠ 0 → (∀ entry, blob.content.entries[first]? = some entry →
        prevKey < entry.1 ∨ direction = .backward ∧ prevKey ≤ entry.1) →
      index.StepRight blob (some prevKey) direction
        (index.searchWindows blob prevKey direction halfWindowSize fuel
          ((first + 1 - 2 * halfWindowSize) * index.elementSize, (first + 1) * index.elementSize)
          cache))
    (up : last ≠ blob.content.entries.length →
      (∀ entry, blob.content.entries[last - 1]? = some entry →
        entry.1 < prevKey ∨ direction = .forward ∧ entry.1 ≤ prevKey) →
      index.StepRight blob (some prevKey) direction
        (index.searchWindows blob prevKey direction halfWindowSize fuel
          ((last - 1) * index.elementSize,
            min (last - 1 + 2 * halfWindowSize) blob.content.entries.length * index.elementSize)
          cache)) :
    index.StepRight blob (some prevKey) direction
      (index.searchWindows blob prevKey direction halfWindowSize (fuel + 1)
        (first * index.elementSize, last * index.elementSize) cache) := by
  have window := index.isWindow_read less inside
  have size := index.length_read less inside
  have right := index.windowRight_windowOutcome less inside prevKey direction
  have wide : ¬(last * index.elementSize - first * index.elementSize < index.elementSize ∨
      index.fileLength blob.content ≤ first * index.elementSize) := by
    rw [← Nat.sub_mul]
    refine not_or.mpr ⟨Nat.not_lt.mpr (Nat.le_mul_of_pos_left _ (by omega)), Nat.not_le.mpr ?_⟩
    exact Nat.mul_lt_mul_of_pos_right (by omega) index.elementSize_pos
  rw [searchWindows]
  simp only [if_neg wide]
  cases outcome : index.windowOutcome blob.content prevKey direction (first * index.elementSize)
      (last * index.elementSize) with
  | found place =>
      rw [outcome] at right
      refine ⟨right.2, fun held isHeld => ?_⟩
      cases isHeld
      exact ⟨rfl, first, last, less, inside, rfl, rfl, rfl⟩
  | endOfFile =>
      rw [outcome] at right
      exact ⟨right, fit⟩
  | moveDown =>
      rw [outcome] at right
      simp only [fileLength, index.moveWindowDown_eq (by omega : first < blob.content.entries.length)]
      refine down right.1 fun entry present => right.2 entry ?_
      rw [window.same 0 window.nonempty]
      exact present
  | moveUp =>
      rw [outcome] at right
      simp only [fileLength, index.moveWindowUp_eq (by omega : 0 < last) inside]
      refine up (fun atEnd => right.1 (by omega)) fun entry present => right.2 entry ?_
      rw [window.same _ (by omega), size, show first + (last - first - 1) = last - 1 by omega]
      exact present

/-- A search that moves down goes on moving down. -/
theorem stepRight_searchWindows_down (positive : 0 < halfWindowSize) (less : first < last)
    (inside : last ≤ blob.content.entries.length)
    (fit : ∀ held, cache = some held → held.position = blob.position ∧
      index.Fits held blob.content) {fuel : Nat} (enough : first < fuel)
    (mode : ∀ entry, blob.content.entries[last - 1]? = some entry →
      prevKey < entry.1 ∨ direction = .backward ∧ prevKey ≤ entry.1) :
    index.StepRight blob (some prevKey) direction
      (index.searchWindows blob prevKey direction halfWindowSize fuel
        (first * index.elementSize, last * index.elementSize) cache) := by
  induction fuel generalizing first last with
  | zero => cases enough
  | succ fuel ih =>
      refine stepRight_searchWindows_succ less inside fit (fun later atFirst => ?_)
        (fun notEnd atLast => ?_)
      · exact ih (by omega) (by omega) (by omega) atFirst
      · have present := List.getElem?_eq_getElem (by omega : last - 1 < blob.content.entries.length)
        rcases mode _ present with below | ⟨isBackward, upTo⟩
        · rcases atLast _ present with above | ⟨-, from_⟩
          · exact absurd above below.asymm
          · exact absurd below from_.not_gt
        · rcases atLast _ present with above | ⟨isForward, -⟩
          · exact absurd above upTo.not_gt
          · cases isBackward.symm.trans isForward

/-- A search that moves up goes on moving up. -/
theorem stepRight_searchWindows_up (positive : 0 < halfWindowSize) (less : first < last)
    (inside : last ≤ blob.content.entries.length)
    (fit : ∀ held, cache = some held → held.position = blob.position ∧
      index.Fits held blob.content) {fuel : Nat}
    (enough : blob.content.entries.length - last < fuel)
    (mode : ∀ entry, blob.content.entries[first]? = some entry →
      entry.1 < prevKey ∨ direction = .forward ∧ entry.1 ≤ prevKey) :
    index.StepRight blob (some prevKey) direction
      (index.searchWindows blob prevKey direction halfWindowSize fuel
        (first * index.elementSize, last * index.elementSize) cache) := by
  induction fuel generalizing first last with
  | zero => cases enough
  | succ fuel ih =>
      refine stepRight_searchWindows_succ less inside fit (fun later atFirst => ?_)
        (fun notEnd atLast => ?_)
      · have present := List.getElem?_eq_getElem (by omega : first < blob.content.entries.length)
        rcases mode _ present with above | ⟨isForward, from_⟩
        · rcases atFirst _ present with below | ⟨-, upTo⟩
          · exact absurd above below.asymm
          · exact absurd above upTo.not_gt
        · rcases atFirst _ present with below | ⟨isBackward, -⟩
          · exact absurd below from_.not_gt
          · cases isBackward.symm.trans isForward
      · have grows : last < min (last - 1 + 2 * halfWindowSize) blob.content.entries.length :=
          lt_min (by omega) (by omega)
        exact ih (by omega) (min_le_right _ _) (by omega) atLast

theorem stepRight_searchFromEstimate
    (fit : ∀ held, cache = some held → held.position = blob.position ∧
      index.Fits held blob.content) (prevKey : K) (direction : Direction) :
    index.StepRight blob (some prevKey) direction
      (index.searchFromEstimate blob prevKey direction cache) := by
  have half : 0 < index.windowSize / 2 := Nat.div_pos index.two_le_windowSize Nat.two_pos
  unfold searchFromEstimate
  simp only [probableKeyOffsetAndWindowSize]
  rcases Nat.eq_zero_or_pos blob.content.entries.length with nothing | something
  · have empty : index.fileLength blob.content = 0 := by rw [fileLength, nothing, Nat.zero_mul]
    have window : index.lookupWindow (index.windowSize / 2)
        (min (index.prefixPos prevKey * 0 / index.cellWidth prevKey) ((0 + 2 ^ 64 - 1) % 2 ^ 64)) 0 =
          (0, 0) := by
      simp [lookupWindow]
    rw [empty, window, searchWindows, if_pos (Or.inl index.elementSize_pos)]
    refine ⟨fun key _ => ?_, fit⟩
    exact SortedMap.isEmpty_iff.mp (List.isEmpty_iff.mpr (List.length_eq_zero_iff.mp nothing)) key
  · have positive : 0 < index.fileLength blob.content := Nat.mul_pos something index.elementSize_pos
    have estimate : min (index.prefixPos prevKey * index.fileLength blob.content /
        index.cellWidth prevKey) ((index.fileLength blob.content + 2 ^ 64 - 1) % 2 ^ 64) <
          blob.content.entries.length * index.elementSize := by
      refine (min_le_right _ _).trans_lt ?_
      change _ < index.fileLength blob.content
      omega
    obtain ⟨first, last, less, inside, isWindow⟩ := index.lookupWindow_eq half estimate
    rw [fileLength] at isWindow ⊢
    rw [isWindow]
    refine stepRight_searchWindows_succ less inside fit (fun later atFirst => ?_)
      (fun notEnd atLast => ?_)
    · exact stepRight_searchWindows_down half (by omega) (by omega) fit (by omega) atFirst
    · have grows : last < min (last - 1 + 2 * (index.windowSize / 2)) blob.content.entries.length :=
        lt_min (by omega) (by omega)
      exact stepRight_searchWindows_up half (by omega) (min_le_right _ _) fit (by omega) atLast

/-- What the kept window tells is right. -/
theorem windowRight_cachedNext {held : UniformLookupCache K} {content : SortedMap K WalPosition}
    (fits : index.Fits held content) {outcome : WindowOutcome}
    (told : cachedNext held (index.fileLength content) prevKey direction = some outcome) :
    ∃ start, IsWindow content.entries held.buffer start ∧
      WindowRight content held.buffer start prevKey direction outcome := by
  obtain ⟨first, last, less, inside, isFrom, isTo, isBuffer⟩ := fits
  have window := index.isWindow_read less inside
  have size := index.length_read less inside
  rw [isFrom, isTo] at isBuffer
  rw [← isBuffer] at window size
  have positive := index.elementSize_pos
  have starts : held.fromOffset = 0 ↔ first = 0 := by
    rw [isFrom, Nat.mul_eq_zero]
    omega
  have ends : held.toOffset = index.fileLength content ↔ last = content.entries.length := by
    rw [isTo, fileLength]
    exact Nat.mul_left_inj (by omega)
  refine ⟨first, window, ?_⟩
  unfold cachedNext at told
  split at told
  · rename_i firstEntry lastEntry isFirst isLast
    rw [List.head?_eq_getElem?] at isFirst
    rw [List.getLast?_eq_getElem?] at isLast
    split at told
    · rename_i inRange
      obtain rfl := Option.some.inj told
      refine windowRight_windowNext window ?_ ?_ ?_ ?_ ?_
      · split
        · rename_i returned
          obtain ⟨⟨key, value⟩, present, isKey⟩ := (Option.any_eq_true _ _).mp returned
          obtain rfl : key = prevKey := of_decide_eq_true isKey
          exact ⟨value, present⟩
        · exact located_binarySearch window.sorted prevKey
      · rw [decide_eq_true_iff]
        exact starts
      · rw [decide_eq_true_iff, ends]
        omega
      · rcases inRange.1 with upTo | atStart
        · refine Or.inr fun entry isEntry => ?_
          rw [Option.some.inj (isEntry.symm.trans isFirst)]
          exact upTo
        · exact Or.inl (starts.mp atStart)
      · rcases inRange.2 with upTo | atEnd
        · refine Or.inr fun entry isEntry => ?_
          rw [Option.some.inj (isEntry.symm.trans isLast)]
          exact upTo
        · have := ends.mp atEnd
          exact Or.inl (by omega)
    · cases told
  · cases told

theorem nextIn_nextEntryUnloadedNoPrev (content : SortedMap K WalPosition) (direction : Direction) :
    NextIn direction (direction.Past none) content.lookup
      (index.nextEntryUnloadedNoPrev content direction) := by
  have positive := index.elementSize_pos
  unfold nextEntryUnloadedNoPrev
  rcases Nat.eq_zero_or_pos content.entries.length with nothing | something
  · have empty : index.edgeWindow direction (index.fileLength content) = (0, 0) := by
      rw [fileLength, nothing, Nat.zero_mul]
      cases direction with
      | forward => exact congrArg (Prod.mk 0) (Nat.min_zero _)
      | backward => exact congrArg (Prod.mk · 0) (Nat.zero_sub _)
    simp only [empty, le_refl, true_or, if_true]
    exact fun key _ =>
      SortedMap.isEmpty_iff.mp (List.isEmpty_iff.mpr (List.length_eq_zero_iff.mp nothing)) key
  · obtain ⟨first, last, less, inside, isWindow, edge⟩ :=
      index.edgeWindow_eq direction something
    have window := index.isWindow_read less inside
    have size := index.length_read less inside
    have below := Nat.mul_lt_mul_of_pos_right less positive
    have wide : ¬(last * index.elementSize ≤ first * index.elementSize ∨
        index.fileLength content ≤ first * index.elementSize) :=
      not_or.mpr ⟨Nat.not_le.mpr below,
        Nat.not_le.mpr (below.trans_le (Nat.mul_le_mul_right _ inside))⟩
    simp only [fileLength] at wide ⊢
    simp only [isWindow, if_neg wide]
    rcases edge with ⟨rfl, rfl⟩ | ⟨rfl, rfl⟩
    · simp only [firstInRange]
      rw [window.same 0 window.nonempty]
      exact splitsAt_ends.1.nextIn_forward
    · simp only [firstInRange]
      rw [window.same _ (by omega), size,
        show first + (content.entries.length - first - 1) = content.entries.length - 1 by omega]
      have next := (@splitsAt_ends _ _ content).2.nextIn_backward
      rw [if_neg (by omega)] at next
      exact next

theorem stepRight_nextEntryUnloaded (prev : Option K) (direction : Direction)
    (fit : ∀ held, cache = some held → held.position = blob.position →
      index.Fits held blob.content) :
    index.StepRight blob prev direction (index.nextEntryUnloaded blob prev direction cache) := by
  cases prev with
  | none => exact ⟨nextIn_nextEntryUnloadedNoPrev blob.content direction, nofun⟩
  | some prevKey =>
      have fresh : ∀ held, (cache.filter fun held => held.position = blob.position) = some held →
          held.position = blob.position ∧ index.Fits held blob.content := by
        intro held isKept
        obtain ⟨kept, same⟩ := Option.filter_eq_some_iff.mp isKept
        have position : held.position = blob.position := of_decide_eq_true same
        exact ⟨position, fit held kept position⟩
      unfold nextEntryUnloaded
      simp only
      generalize (cache.filter fun held => held.position = blob.position) = kept at fresh ⊢
      cases kept with
      | none => exact stepRight_searchFromEstimate fresh prevKey direction
      | some held =>
          obtain ⟨position, fits⟩ := fresh held rfl
          simp only
          cases told : cachedNext held (index.fileLength blob.content) prevKey direction with
          | none => exact stepRight_searchFromEstimate fresh prevKey direction
          | some outcome =>
              obtain ⟨start, window, right⟩ := windowRight_cachedNext fits told
              cases outcome with
              | found place =>
                  refine ⟨right.2, fun next isNext => ?_⟩
                  cases isNext
                  exact ⟨position, fits⟩
              | endOfFile => exact ⟨right, fresh⟩
              | moveDown => exact stepRight_searchFromEstimate fresh prevKey direction
              | moveUp => exact stepRight_searchFromEstimate fresh prevKey direction

/-- The uniform format. -/
def format (index : UniformLookupIndex K) : IndexFormat K where
  readBack := id
  readBack_of_valid := id_of_valid
  IterCache := UniformLookupCache K
  position := UniformLookupCache.position
  Fits := index.Fits
  Orders _ := True
  nextEntryUnloaded := index.nextEntryUnloaded
  next_eq _ _ blob prev direction _ _ _ fit := by
    have right := (stepRight_nextEntryUnloaded prev direction fit).1.unique
      (blob.content.nextIn_next direction prev)
    rw [right]
    exact (congrFun Option.map_id _).symm
  keeps _ _ _ prev direction _ _ _ fit := (stepRight_nextEntryUnloaded prev direction fit).2

end

end UniformLookupIndex

end Tidehunter.Index
