import Tidehunter.Index.Format

/-!
# The header format

A blob starts with a header that gives the section of each micro cell. The micro cell of a key
grows with the key among the keys of a cell, so the sections lie in key order. A step reads the
section of the previous key, or the one kept from the step before, and goes on to the next
sections until one of them has a key ahead.
-/

namespace Tidehunter.Index

open Library Wal

variable {K : Type} [LinearOrder K]

def headerElements : Nat := 128

/-- The next number below a bound, or nothing at the end. -/
def nextBounded (number maxExcluded : Nat) : Direction → Option Nat
  | .backward => checkedSub number 1
  | .forward => if maxExcluded - 1 ≤ number then none else some (number + 1)

/-- The section an iterator keeps from its last step on a blob. -/
structure LookupHeaderCache (K : Type) where
  position : WalPosition
  microCell : Nat
  buffer : List (K × WalPosition)
  lastReturnedPos : Nat

/-- How keys are divided into micro cells, and how the entries of a section are searched and
read back. -/
structure LookupHeaderIndex (K : Type) [LinearOrder K] where
  keyMicroCell : K → Nat
  search : List (K × WalPosition) → Option K → Direction → Option (K × WalPosition × Nat)
  readBack : WalPosition → WalPosition
  readBack_of_valid : ∀ position, position ≠ WalPosition.invalid → readBack position = position
  foundNext : ∀ map prev direction,
    FoundNext map direction prev (search map.entries prev direction)

namespace LookupHeaderIndex

variable (index : LookupHeaderIndex K)

/-- The entries of a micro cell. -/
def microCellSection (content : SortedMap K WalPosition) (microCell : Nat) :
    SortedMap K WalPosition :=
  content.filter fun key _ => index.keyMicroCell key = microCell

/-- Read the section of a micro cell; the header has no section for an empty one. -/
def readMicroCellSection (content : SortedMap K WalPosition) (microCell : Nat) :
    Option (List (K × WalPosition)) :=
  let buffer := (index.microCellSection content microCell).entries
  if buffer.isEmpty then none else some buffer

/-- Look for the next entry in the kept section. -/
def searchKept (held : LookupHeaderCache K) (prev : Option K) (direction : Direction) :
    Option (K × WalPosition × Nat) :=
  match prev with
  | some prevKey =>
      if held.buffer[held.lastReturnedPos]?.any fun last => decide (last.1 = prevKey) then
        sequentialNext held.buffer held.lastReturnedPos direction
      else index.search held.buffer prev direction
  | none => index.search held.buffer prev direction

/-- Look for the next entry in one micro cell, in the kept section if it is the one. Gives the
entry and what to keep. -/
def lookInMicroCell (blob : Blob K) (prev : Option K) (direction : Direction) (microCell : Nat)
    (cache : Option (LookupHeaderCache K)) : Option ((K × WalPosition) × LookupHeaderCache K) :=
  match cache.filter fun held => held.microCell = microCell with
  | some held =>
      (index.searchKept held prev direction).map fun found =>
        ((found.1, index.readBack found.2.1), { held with lastReturnedPos := found.2.2 })
  | none =>
      (index.readMicroCellSection blob.content microCell).bind fun buffer =>
        (index.search buffer prev direction).map fun found =>
          ((found.1, index.readBack found.2.1), ⟨blob.position, microCell, buffer, found.2.2⟩)

/-- Look through the micro cells in a direction. -/
def nextEntryFrom (blob : Blob K) (prev : Option K) (direction : Direction) :
    Nat → Nat → Option (LookupHeaderCache K) →
      Option (K × WalPosition) × Option (LookupHeaderCache K)
  | 0, _, _ => (none, none)
  | fuel + 1, microCell, cache =>
      match index.lookInMicroCell blob prev direction microCell cache with
      | some (found, held) => (some found, some held)
      | none =>
          match nextBounded microCell headerElements direction with
          | some next => nextEntryFrom blob prev direction fuel next none
          | none => (none, none)

def nextEntryUnloaded (blob : Blob K) (prev : Option K) (direction : Direction)
    (cache : Option (LookupHeaderCache K)) :
    Option (K × WalPosition) × Option (LookupHeaderCache K) :=
  let start := match prev with
    | some prevKey => index.keyMicroCell prevKey
    | none => firstInRange direction headerElements
  index.nextEntryFrom blob prev direction headerElements start
    (cache.filter fun held => held.position = blob.position)

/-! ## What a step gives -/

/-- The kept section is one of the contents. -/
def Fits (cache : LookupHeaderCache K) (content : SortedMap K WalPosition) : Prop :=
  cache.buffer = (index.microCellSection content cache.microCell).entries

/-- The micro cells of these keys grow with the keys. -/
structure Orders (keys : K → Prop) : Prop where
  bounded : ∀ key, keys key → index.keyMicroCell key < headerElements
  monotone : ∀ first second, keys first → keys second → first ≤ second →
    index.keyMicroCell first ≤ index.keyMicroCell second

variable {index} {keys : K → Prop} {blob : Blob K} {prev : Option K} {direction : Direction}
  {microCell : Nat}

theorem lookup_microCellSection (content : SortedMap K WalPosition) (key : K) :
    (index.microCellSection content microCell).lookup key =
      if index.keyMicroCell key = microCell then content.lookup key else none := by
  rw [microCellSection, SortedMap.lookup_filter]
  by_cases inside : index.keyMicroCell key = microCell
  · cases content.lookup key <;> simp [inside, Option.filter]
  · simp [inside]

/-- The keys ahead lie in a micro cell that is not behind this one. -/
def Reached (direction : Direction) (microCell other : Nat) : Prop :=
  match direction with
  | .forward => microCell ≤ other
  | .backward => other ≤ microCell

/-- What a look into a micro cell gives. -/
theorem lookInMicroCell_spec {cache : Option (LookupHeaderCache K)}
    (fit : ∀ held, cache = some held → held.position = blob.position ∧
      index.Fits held blob.content) :
    NextIn direction (direction.Past prev)
        (fun key => ((index.microCellSection blob.content microCell).lookup key).map index.readBack)
        ((index.lookInMicroCell blob prev direction microCell cache).map Prod.fst) ∧
      ∀ found held, index.lookInMicroCell blob prev direction microCell cache = some (found, held) →
        held.position = blob.position ∧ index.Fits held blob.content := by
  have mapped : ∀ {result : Option (K × WalPosition × Nat)},
      FoundNext (index.microCellSection blob.content microCell) direction prev result →
        NextIn direction (direction.Past prev)
          (fun key => ((index.microCellSection blob.content microCell).lookup key).map index.readBack)
          (result.map fun found => (found.1, index.readBack found.2.1)) := by
    intro result found
    have next := found.next.map index.readBack
    rw [Option.map_map] at next
    exact next
  unfold lookInMicroCell
  split
  · rename_i held isKept
    obtain ⟨kept, same⟩ := Option.filter_eq_some_iff.mp isKept
    obtain ⟨position, fits⟩ := fit held kept
    obtain rfl : held.microCell = microCell := of_decide_eq_true same
    have found : FoundNext (index.microCellSection blob.content held.microCell) direction prev
        (index.searchKept held prev direction) := by
      unfold searchKept
      rw [fits]
      split
      · rename_i prevKey
        split
        · rename_i last
          obtain ⟨⟨key, value⟩, present, isKey⟩ := (Option.any_eq_true _ _).mp last
          obtain rfl : key = prevKey := of_decide_eq_true isKey
          exact foundNext_sequentialNext present direction
        · exact index.foundNext _ _ _
      · exact index.foundNext _ _ _
    refine ⟨?_, fun result next isResult => ?_⟩
    · rw [Option.map_map]
      exact mapped found
    · obtain ⟨_, -, isNext⟩ := Option.map_eq_some_iff.mp isResult
      cases isNext
      exact ⟨position, fits⟩
  · cases read : index.readMicroCellSection blob.content microCell with
    | none =>
        have nothing : (index.microCellSection blob.content microCell).isEmpty = true := by
          unfold readMicroCellSection at read
          simp only at read
          split at read
          · rename_i nothing
            exact nothing
          · cases read
        refine ⟨fun key _ => ?_, nofun⟩
        simp only [SortedMap.isEmpty_iff.mp nothing key, Option.map_none]
    | some buffer =>
        have isBuffer : (index.microCellSection blob.content microCell).entries = buffer := by
          unfold readMicroCellSection at read
          simp only at read
          split at read
          · cases read
          · exact Option.some.inj read
        subst isBuffer
        rw [Option.bind_some]
        refine ⟨?_, fun result next isResult => ?_⟩
        · rw [Option.map_map]
          exact mapped (index.foundNext _ _ _)
        · obtain ⟨_, -, isNext⟩ := Option.map_eq_some_iff.mp isResult
          cases isNext
          exact ⟨rfl, rfl⟩

/-- How many micro cells a step may still look into. -/
def cellsLeft (direction : Direction) (microCell : Nat) : Nat :=
  match direction with
  | .forward => headerElements - microCell
  | .backward => microCell + 1

theorem nextBounded_eq_some {maxExcluded next : Nat}
    (isNext : nextBounded microCell maxExcluded direction = some next) :
    direction = .forward ∧ next = microCell + 1 ∧ microCell + 1 < maxExcluded ∨
      direction = .backward ∧ microCell = next + 1 := by
  cases direction with
  | forward =>
      simp only [nextBounded] at isNext
      split at isNext
      · cases isNext
      · cases isNext
        exact Or.inl ⟨rfl, rfl, by omega⟩
  | backward =>
      simp only [nextBounded, checkedSub] at isNext
      split at isNext
      · cases isNext
        exact Or.inr ⟨rfl, by omega⟩
      · cases isNext

theorem nextBounded_eq_none {maxExcluded : Nat}
    (atEnd : nextBounded microCell maxExcluded direction = none) :
    direction = .forward ∧ maxExcluded ≤ microCell + 1 ∨ direction = .backward ∧ microCell = 0 := by
  cases direction with
  | forward =>
      simp only [nextBounded] at atEnd
      split at atEnd
      · exact Or.inl ⟨rfl, by omega⟩
      · cases atEnd
  | backward =>
      simp only [nextBounded, checkedSub] at atEnd
      split at atEnd
      · cases atEnd
      · exact Or.inr ⟨rfl, by omega⟩

/-- A step through the micro cells gives the next entry of the blob, as long as no key ahead is
in a micro cell that was passed. -/
theorem nextEntryFrom_spec (orders : index.Orders keys)
    (inside : ∀ key ∈ blob.content.keys, keys key) {fuel : Nat}
    (enough : cellsLeft direction microCell ≤ fuel) (bounded : microCell < headerElements)
    (reached : ∀ key ∈ blob.content.keys, direction.Past prev key →
      Reached direction microCell (index.keyMicroCell key))
    {cache : Option (LookupHeaderCache K)}
    (fit : ∀ held, cache = some held → held.position = blob.position ∧
      index.Fits held blob.content) :
    NextIn direction (direction.Past prev)
        (fun key => (blob.content.lookup key).map index.readBack)
        (index.nextEntryFrom blob prev direction fuel microCell cache).1 ∧
      ∀ held, (index.nextEntryFrom blob prev direction fuel microCell cache).2 = some held →
        held.position = blob.position ∧ index.Fits held blob.content := by
  have isKey : ∀ {key : K} {value : WalPosition}, blob.content.lookup key = some value →
      key ∈ blob.content.keys := fun found => SortedMap.mem_keys_iff.mpr ⟨_, found⟩
  induction fuel generalizing microCell cache with
  | zero =>
      cases direction <;> simp only [cellsLeft] at enough <;> omega
  | succ fuel ih =>
      obtain ⟨next, kept⟩ := @lookInMicroCell_spec _ _ index blob prev direction microCell _ fit
      rw [nextEntryFrom]
      cases looked : index.lookInMicroCell blob prev direction microCell cache with
      | some result =>
          obtain ⟨⟨key, value⟩, held⟩ := result
          rw [looked] at next
          obtain ⟨past, found, first⟩ := next
          simp only [lookup_microCellSection] at found first
          split at found
          · rename_i here
            refine ⟨⟨past, found, fun other ahead before => ?_⟩, fun other same => ?_⟩
            · refine Option.map_eq_none_iff.mpr (Option.eq_none_iff_forall_ne_some.mpr
                fun held bound => ?_)
              obtain ⟨position, isFound, -⟩ := Option.map_eq_some_iff.mp found
              -- a key in front of the one found would be in the same micro cell
              have same : index.keyMicroCell other = microCell := by
                have ahead' := reached other (isKey bound) ahead
                rw [← here] at ahead' ⊢
                cases direction with
                | forward =>
                    have upTo := orders.monotone other key (inside _ (isKey bound))
                      (inside _ (isKey isFound)) (le_of_lt before)
                    exact Nat.le_antisymm upTo ahead'
                | backward =>
                    have upTo := orders.monotone key other (inside _ (isKey isFound))
                      (inside _ (isKey bound)) (le_of_lt before)
                    exact Nat.le_antisymm ahead' upTo
              have absent := first other ahead before
              rw [if_pos same, bound] at absent
              cases absent
            · cases same
              exact kept _ _ looked
          · cases found
      | none =>
          rw [looked] at next
          have beyond : ∀ key ∈ blob.content.keys, direction.Past prev key →
              index.keyMicroCell key ≠ microCell := by
            intro key member past here
            obtain ⟨value, found⟩ := SortedMap.mem_keys_iff.mp member
            have absent : ((index.microCellSection blob.content microCell).lookup key).map
                index.readBack = none := next key past
            rw [lookup_microCellSection, if_pos here, found] at absent
            cases absent
          simp only
          cases bounds : nextBounded microCell headerElements direction with
          | none =>
              refine ⟨fun key past => ?_, nofun⟩
              refine Option.map_eq_none_iff.mpr (Option.eq_none_iff_forall_ne_some.mpr
                fun value found => ?_)
              have ahead := reached key (isKey found) past
              have other := beyond key (isKey found) past
              have below := orders.bounded key (inside _ (isKey found))
              rcases nextBounded_eq_none bounds with ⟨rfl, last⟩ | ⟨rfl, first⟩
              · simp only [Reached] at ahead
                omega
              · simp only [Reached] at ahead
                omega
          | some following =>
              refine ih ?_ ?_ ?_ nofun
              · rcases nextBounded_eq_some bounds with ⟨rfl, rfl, -⟩ | ⟨rfl, rfl⟩
                · simp only [cellsLeft] at enough ⊢
                  omega
                · simp only [cellsLeft] at enough ⊢
                  omega
              · rcases nextBounded_eq_some bounds with ⟨rfl, rfl, below⟩ | ⟨rfl, rfl⟩
                · exact below
                · omega
              · intro key member past
                have ahead := reached key member past
                have other := beyond key member past
                rcases nextBounded_eq_some bounds with ⟨rfl, rfl, -⟩ | ⟨rfl, rfl⟩
                · simp only [Reached] at ahead ⊢
                  omega
                · simp only [Reached] at ahead ⊢
                  omega

/-- A step on a blob gives its next entry, whatever was kept from steps before. -/
theorem nextEntryUnloaded_spec (orders : index.Orders keys)
    (inside : ∀ key ∈ blob.content.keys, keys key) (behind : ∀ key, prev = some key → keys key)
    {cache : Option (LookupHeaderCache K)}
    (fit : ∀ held, cache = some held → held.position = blob.position →
      index.Fits held blob.content) :
    NextIn direction (direction.Past prev)
        (fun key => (blob.content.lookup key).map index.readBack)
        (index.nextEntryUnloaded blob prev direction cache).1 ∧
      ∀ held, (index.nextEntryUnloaded blob prev direction cache).2 = some held →
        held.position = blob.position ∧ index.Fits held blob.content := by
  have fresh : ∀ held, (cache.filter fun held => held.position = blob.position) = some held →
      held.position = blob.position ∧ index.Fits held blob.content := by
    intro held isKept
    obtain ⟨kept, same⟩ := Option.filter_eq_some_iff.mp isKept
    have position : held.position = blob.position := of_decide_eq_true same
    exact ⟨position, fit held kept position⟩
  unfold nextEntryUnloaded
  cases prev with
  | none =>
      refine nextEntryFrom_spec orders inside ?_ ?_ (fun key member _ => ?_) fresh
      · cases direction <;> exact Nat.le_refl _
      · cases direction with
        | forward => exact (by decide : 0 < headerElements)
        | backward => exact (by decide : headerElements - 1 < headerElements)
      · have below := orders.bounded key (inside key member)
        cases direction with
        | forward => exact Nat.zero_le _
        | backward => exact Nat.le_sub_one_of_lt below
  | some prevKey =>
      have below := orders.bounded prevKey (behind prevKey rfl)
      refine nextEntryFrom_spec orders inside ?_ below (fun key member past => ?_) fresh
      · cases direction with
        | forward => exact Nat.sub_le _ _
        | backward => exact below
      · cases direction with
        | forward =>
            exact orders.monotone prevKey key (behind prevKey rfl) (inside key member) (le_of_lt past)
        | backward =>
            exact orders.monotone key prevKey (inside key member) (behind prevKey rfl) (le_of_lt past)

/-- The header format. -/
def format (index : LookupHeaderIndex K) : IndexFormat K where
  readBack := index.readBack
  readBack_of_valid := index.readBack_of_valid
  IterCache := LookupHeaderCache K
  position := LookupHeaderCache.position
  Fits := index.Fits
  Orders := index.Orders
  nextEntryUnloaded := index.nextEntryUnloaded
  next_eq _ orders blob prev direction _ inside behind fit :=
    (nextEntryUnloaded_spec orders inside behind fit).1.unique
      ((blob.content.nextIn_next direction prev).map index.readBack)
  keeps _ orders _ _ _ _ inside behind fit :=
    (nextEntryUnloaded_spec orders inside behind fit).2

/-- The header format for keys of one size. -/
def fixed (keyMicroCell : K → Nat) : LookupHeaderIndex K :=
  ⟨keyMicroCell, searchInMicroCellBuffer, id, fun _ _ => rfl, foundNext_searchInMicroCellBuffer⟩

/-- The header format for keys of variable length. -/
def varlen (keyMicroCell : K → Nat) : LookupHeaderIndex K :=
  ⟨keyMicroCell, searchInVarlenMicroCellBuffer, varlenReadBack, varlenReadBack_of_valid,
    foundNext_searchInVarlenMicroCellBuffer⟩

end LookupHeaderIndex

end Tidehunter.Index
